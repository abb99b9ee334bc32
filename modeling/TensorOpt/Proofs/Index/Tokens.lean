import Std.Data.String.ToInt
import TensorOpt.Index.Basic

namespace TensorOpt.Index

/-- The letters of other scripts count, and with them everything beyond ASCII. -/
def isLetter (c : Char) : Bool := c.isAlpha || c == '_' || 128 ≤ c.toNat

def Identifier (x : String) : Prop :=
  x.toList.head?.any isLetter ∧ x.toList.all fun c ↦ isLetter c || c.isDigit

instance (x : String) : Decidable (Identifier x) := inferInstanceAs (Decidable (_ ∧ _))

def isWordChar (c : Char) : Bool := isLetter c || c.isDigit || c == '-'

inductive Sign
  | plus
  | minus
  | times

def Sign.char : Sign → Char
  | plus => '+'
  | minus => '-'
  | times => '*'

theorem Sign.char_injective : Function.Injective Sign.char := by
  intro s s' h
  cases s <;> cases s' <;> simp_all [Sign.char]

inductive Head
  | group
  | floorDiv
  | floorMod
  | ramp

def Head.text : Head → String
  | group => ""
  | floorDiv => "floordiv"
  | floorMod => "floormod"
  | ramp => "ramp"

theorem Head.text_injective : Function.Injective Head.text := by
  intro h h' heq
  cases h <;> cases h' <;> simp_all [Head.text]

inductive Token
  | word (text : String)
  | sign (s : Sign)
  | opening (h : Head)
  | comma
  | closing

namespace Token

def lead : Token → List Char
  | word text => text.toList
  | opening h => h.text.toList
  | sign _ | comma | closing => []

def mark : Token → List Char
  | word _ => []
  | sign s => [' ', s.char, ' ']
  | opening _ => ['(']
  | comma => [',', ' ']
  | closing => [')']

def chars (t : Token) : List Char := t.lead ++ t.mark

def IsBreak : Token → Prop
  | word _ | opening _ => False
  | sign _ | comma | closing => True

end Token

/-- Words are not empty and are followed by a mark other than an opening bracket. -/
inductive Spaced : List Token → Prop
  | nil : Spaced []
  | word {text : String} {ts : List Token} (hne : text.toList ≠ [])
    (hchars : ∀ c ∈ text.toList, isWordChar c) (hbreak : ∀ t ∈ ts.head?, t.IsBreak)
    (hts : Spaced ts) : Spaced (.word text :: ts)
  | mark {t : Token} {ts : List Token} (ht : ∀ text, t ≠ .word text) (hts : Spaced ts) :
    Spaced (t :: ts)

variable {text : String} {t t' : Token} {ts ts' : List Token} {e : Index}

namespace Spaced

theorem tail (h : Spaced (t :: ts)) : Spaced ts := by
  cases h with
  | word _ _ _ hts => exact hts
  | mark _ hts => exact hts

theorem isWordChar_lead (h : Spaced (t :: ts)) : ∀ c ∈ t.lead, isWordChar c := by
  cases h with
  | word _ hchars => exact hchars
  | mark ht =>
    cases t with
    | word text => exact absurd rfl (ht text)
    | opening h => cases h <;> exact List.all_eq_true.1 (by decide)
    | sign _ | comma | closing => exact nofun

/-- What follows a word neither continues it nor opens a bracket. -/
theorem break_head (h : Spaced (.word text :: ts)) :
    ∀ c ∈ (ts.flatMap Token.chars).head?, ¬isWordChar c ∧ c ≠ '(' := by
  cases h with
  | mark ht => exact absurd rfl (ht text)
  | word _ _ hbreak =>
    cases ts with
    | nil => exact nofun
    | cons t ts =>
      have ht : t.IsBreak := hbreak t rfl
      cases t with
      | word | opening => exact ht.elim
      | sign | comma | closing =>
        rintro c ⟨⟩
        decide

theorem not_isWordChar_mark (h : Spaced (t :: ts)) :
    ∀ c ∈ (t.mark ++ ts.flatMap Token.chars).head?, ¬isWordChar c := by
  cases t with
  | word text => exact fun c hc ↦ (h.break_head c hc).1
  | sign s | opening h | comma | closing =>
    rintro c ⟨⟩
    decide

theorem word_ne_nil (h : Spaced (.word text :: ts)) : text.toList ≠ [] := by
  cases h with
  | word hne => exact hne
  | mark ht => exact absurd rfl (ht text)

theorem chars_ne_nil (h : Spaced (t :: ts)) : (t :: ts).flatMap Token.chars ≠ [] := by
  rw [List.flatMap_cons]
  refine List.append_ne_nil_of_left_ne_nil ?_ _
  cases t with
  | word text => exact List.append_ne_nil_of_left_ne_nil h.word_ne_nil _
  | opening => exact List.append_ne_nil_of_right_ne_nil _ (List.cons_ne_nil _ _)
  | sign | comma | closing => exact List.cons_ne_nil _ _

theorem append (h : Spaced ts) (h' : Spaced (t :: ts')) (ht : t.IsBreak) :
    Spaced (ts ++ t :: ts') := by
  induction h with
  | nil => exact h'
  | @word text rest hne hchars hbreak _ ih =>
    refine .word hne hchars ?_ ih
    cases rest with
    | nil =>
      rintro _ ⟨⟩
      exact ht
    | cons => exact hbreak
  | mark hmark _ ih => exact .mark hmark ih

end Spaced

theorem split_unique {p : Char → Bool} {l l' r r' : List Char} (hl : ∀ c ∈ l, p c)
    (hl' : ∀ c ∈ l', p c) (hr : ∀ c ∈ r.head?, ¬p c) (hr' : ∀ c ∈ r'.head?, ¬p c)
    (h : l ++ r = l' ++ r') : l = l' ∧ r = r' := by
  have hnil {s : List Char} (hs : ∀ c ∈ s.head?, ¬p c) : s.takeWhile p = [] := by
    cases s with
    | nil => rfl
    | cons c s => exact List.takeWhile_cons_of_neg (hs c rfl)
  have htake := congrArg (List.takeWhile p) h
  rw [List.takeWhile_append_of_pos hl, List.takeWhile_append_of_pos hl', hnil hr, hnil hr',
    List.append_nil, List.append_nil] at htake
  subst htake
  exact ⟨rfl, List.append_cancel_left h⟩

/-- Texts that are the same begin with the same token. -/
theorem head_eq_of_chars (h : Spaced (t :: ts)) (h' : Spaced (t' :: ts'))
    (heq : (t :: ts).flatMap Token.chars = (t' :: ts').flatMap Token.chars) :
    t = t' ∧ ts.flatMap Token.chars = ts'.flatMap Token.chars := by
  rw [List.flatMap_cons, List.flatMap_cons, Token.chars, Token.chars, List.append_assoc,
    List.append_assoc] at heq
  obtain ⟨hlead, hmark⟩ := split_unique h.isWordChar_lead h'.isWordChar_lead h.not_isWordChar_mark
    h'.not_isWordChar_mark heq
  -- A word is not followed by a bracket, and what begins without a word differs in its first mark.
  cases t <;> cases t'
  case word.word => exact ⟨congrArg Token.word (String.toList_inj.1 hlead), hmark⟩
  case word.opening => exact absurd rfl (h.break_head '(' (congrArg List.head? hmark)).2
  case opening.word => exact absurd rfl (h'.break_head '(' (congrArg List.head? hmark.symm)).2
  case opening.opening =>
    exact ⟨congrArg Token.opening (Head.text_injective (String.toList_inj.1 hlead)),
      (List.cons.inj hmark).2⟩
  case sign.sign s s' =>
    simp only [Token.mark, List.cons_append, List.cons.injEq, true_and, List.nil_append] at hmark
    exact ⟨congrArg Token.sign (Sign.char_injective hmark.1), hmark.2⟩
  case word.sign | word.comma | word.closing => exact absurd hlead h.word_ne_nil
  case sign.word | comma.word | closing.word => exact absurd hlead.symm h'.word_ne_nil
  all_goals simp_all [Token.mark]

/-- A text can be taken apart into tokens in one way only. -/
theorem eq_of_chars (h : Spaced ts) (h' : Spaced ts')
    (heq : ts.flatMap Token.chars = ts'.flatMap Token.chars) : ts = ts' := by
  induction ts generalizing ts' with
  | nil =>
    cases ts' with
    | nil => rfl
    | cons t' ts' => exact absurd heq.symm h'.chars_ne_nil
  | cons t ts ih =>
    cases ts' with
    | nil => exact absurd heq h.chars_ne_nil
    | cons t' ts' =>
      obtain ⟨rfl, htail⟩ := head_eq_of_chars h h' heq
      rw [ih h.tail h'.tail htail]

def bracketedTokens (needed : Nat) (e : Index) (ts : List Token) : List Token :=
  if e.strength < needed then .opening .group :: (ts ++ [.closing]) else ts

theorem bracketedTokens_of_lt {needed : Nat} (h : e.strength < needed) :
    bracketedTokens needed e ts = .opening .group :: (ts ++ [.closing]) := if_pos h

theorem bracketedTokens_of_le {needed : Nat} (h : needed ≤ e.strength) :
    bracketedTokens needed e ts = ts := if_neg (Nat.not_lt.2 h)

theorem bracketedTokens_one : bracketedTokens 1 e ts = ts := by
  refine bracketedTokens_of_le ?_
  cases e <;> simp [strength]

def tokens : Index → List Token
  | int v => [.word v.render]
  | var x => [.word x]
  | add a b => bracketedTokens 1 a a.tokens ++ .sign .plus :: bracketedTokens 2 b b.tokens
  | sub a b => bracketedTokens 1 a a.tokens ++ .sign .minus :: bracketedTokens 2 b b.tokens
  | mul a b => bracketedTokens 2 a a.tokens ++ .sign .times :: bracketedTokens 3 b b.tokens
  | floorDiv a b => .opening .floorDiv :: (a.tokens ++ .comma :: (b.tokens ++ [.closing]))
  | floorMod a b => .opening .floorMod :: (a.tokens ++ .comma :: (b.tokens ++ [.closing]))
  | ramp a b n => .opening .ramp ::
      (a.tokens ++ .comma :: (b.tokens ++ [.comma, .word (toString n.toNat), .closing]))

theorem flatMap_bracketedTokens (h : ts.flatMap Token.chars = text.toList) (needed : Nat)
    (e : Index) :
    (bracketedTokens needed e ts).flatMap Token.chars = (bracketed needed e text).toList := by
  rw [bracketedTokens, bracketed]
  split
  next => simp [Token.chars, Token.lead, Token.mark, Head.text, h]
  next => exact h

theorem flatMap_tokens (e : Index) : e.tokens.flatMap Token.chars = e.render.toList := by
  induction e with
  | int v => simp [tokens, render, Token.chars, Token.lead, Token.mark]
  | var x => simp [tokens, render, Token.chars, Token.lead, Token.mark]
  | add a b iha ihb | sub a b iha ihb | mul a b iha ihb =>
    simp [tokens, render, flatMap_bracketedTokens iha, flatMap_bracketedTokens ihb, Token.chars,
      Token.lead, Token.mark, Sign.char]
  | floorDiv a b iha ihb | floorMod a b iha ihb | ramp a b n iha ihb =>
    simp [tokens, render, iha, ihb, Token.chars, Token.lead, Token.mark, Head.text]

section Words

variable {c : Char} {x : String}

theorem not_isLetter_of_isDigit (hc : c.isDigit) : ¬isLetter c := by
  unfold Char.isDigit at hc
  unfold isLetter Char.isAlpha Char.isUpper Char.isLower
  simp only [Bool.or_eq_true, Bool.and_eq_true, decide_eq_true_eq, beq_iff_eq, ge_iff_le,
    UInt32.le_iff_toNat_le] at hc ⊢
  have hval : c.toNat = c.val.toNat := rfl
  have h9 : '9'.val.toNat = 57 := rfl
  have hA : 'A'.val.toNat = 65 := rfl
  have ha : 'a'.val.toNat = 97 := rfl
  rintro (((hupper | hlower) | rfl) | hbeyond)
  · omega
  · omega
  · exact absurd hc.2 (by decide)
  · omega

theorem of_mem_numeral (n : Int) : ∀ c ∈ n.repr.toList, c.isDigit ∨ c = '-' := by
  have hdigit (m : Nat) : ∀ c ∈ m.repr.toList, c.isDigit := by
    intro c hc
    rw [Nat.toList_repr] at hc
    exact Nat.isDigit_of_mem_toDigits (by decide) (by decide) hc
  intro c hc
  rw [Int.repr_eq_if] at hc
  split at hc
  next => exact .inl (hdigit _ c hc)
  next =>
    rw [String.toList_append] at hc
    rcases List.mem_append.1 hc with hc | hc
    · exact .inr (List.mem_singleton.1 hc)
    · exact .inl (hdigit _ c hc)

theorem not_identifier_numeral (n : Int) : ¬Identifier n.repr := by
  rintro ⟨hfirst, -⟩
  obtain ⟨c, hhead, hletter⟩ := (Option.any_eq_true _ _).1 hfirst
  rcases of_mem_numeral n c (List.mem_of_mem_head? hhead) with hdigit | rfl
  · exact not_isLetter_of_isDigit hdigit hletter
  · exact absurd hletter (by decide)

theorem spaced_numeral (n : Int) (hbreak : ∀ t ∈ ts.head?, t.IsBreak) (hts : Spaced ts) :
    Spaced (.word n.repr :: ts) := by
  refine .word ?_ (fun c hc ↦ ?_) hbreak hts
  · rw [Ne, String.toList_eq_nil_iff, Int.repr_eq_if]
    split
    next => exact Nat.repr_ne_empty
    next => simp
  · rcases of_mem_numeral n c hc with hdigit | rfl
    · simp [isWordChar, hdigit]
    · decide

theorem spaced_identifier (hx : Identifier x) : Spaced [.word x] := by
  obtain ⟨hfirst, hchars⟩ := hx
  obtain ⟨c, hhead, -⟩ := (Option.any_eq_true _ _).1 hfirst
  refine .word (List.ne_nil_of_mem (List.mem_of_mem_head? hhead)) (fun c hc ↦ ?_) nofun .nil
  have hchar : isLetter c || c.isDigit := List.all_eq_true.1 hchars c hc
  rw [isWordChar, hchar, Bool.true_or]

end Words

def varNames : Index → List String
  | int _ => []
  | var x => [x]
  | add a b | sub a b | mul a b | floorDiv a b | floorMod a b | ramp a b _ =>
    a.varNames ++ b.varNames

def Named (e : Index) : Prop := ∀ x ∈ e.varNames, Identifier x

instance (e : Index) : Decidable e.Named := inferInstanceAs (Decidable (∀ x ∈ e.varNames, _))

theorem spaced_bracketedTokens (h : Spaced ts) (needed : Nat) (e : Index) :
    Spaced (bracketedTokens needed e ts) := by
  rw [bracketedTokens]
  split
  next => exact .mark nofun (h.append (.mark nofun .nil) trivial)
  next => exact h

theorem spaced_tokens (h : e.Named) : Spaced e.tokens := by
  induction e with
  | int v => exact spaced_numeral v.toInt nofun .nil
  | var x => exact spaced_identifier (h x (List.mem_singleton_self x))
  | add a b iha ihb | sub a b iha ihb | mul a b iha ihb =>
    obtain ⟨ha, hb⟩ := List.forall_mem_append.1 h
    exact (spaced_bracketedTokens (iha ha) _ a).append
      (.mark nofun (spaced_bracketedTokens (ihb hb) _ b)) trivial
  | floorDiv a b iha ihb | floorMod a b iha ihb =>
    obtain ⟨ha, hb⟩ := List.forall_mem_append.1 h
    exact .mark nofun ((iha ha).append
      (.mark nofun ((ihb hb).append (.mark nofun .nil) trivial)) trivial)
  | ramp a b n iha ihb =>
    obtain ⟨ha, hb⟩ := List.forall_mem_append.1 h
    have hlanes : Spaced [.word (toString n.toNat), .closing] :=
      spaced_numeral n.toNat (by simp [Token.IsBreak]) (.mark nofun .nil)
    exact .mark nofun ((iha ha).append
      (.mark nofun ((ihb hb).append (.mark nofun hlanes) trivial)) trivial)

/-- Expressions that are written alike are written with the same tokens. -/
theorem tokens_eq_of_render_eq {e' : Index} (h : e.Named) (h' : e'.Named)
    (heq : e.render = e'.render) : e.tokens = e'.tokens := by
  refine eq_of_chars (spaced_tokens h) (spaced_tokens h') ?_
  rw [flatMap_tokens, flatMap_tokens, heq]

end TensorOpt.Index

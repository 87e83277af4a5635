import PolicyLang.Proofs.Grammar.WellFormed
import PolicyLang.Proofs.Number.Signed
import PolicyLang.Proofs.Render.Doubles

/-!
# Integers in canonical text

A number without a point is read at two places, as a literal and as a priority. Both take the integers of
64 signed bits and no other ones, and what they take is read again from its canonical text.
-/

namespace PolicyLang

open Lexical

/-! ## Two places that read integers -/

/-- Both places read the token as the integer `n`. -/
def Token.ReadAs (t : Token) (n : Int) : Prop := ∀ expr start rest,
  (Parser.value expr).run (t :: rest) = .ok (.literal (.int n) t.span, rest) ∧
    (Parser.priorityAfter start).run (t :: rest) = .ok (⟨n, start.span.to t.span⟩, rest)

/-- Both places refuse the token as out of range, and blame it: it is what they stop in front of. -/
def Token.OutOfRange (t : Token) : Prop := ∀ expr start rest,
  (Parser.value expr).run (t :: rest) = .error ⟨.intRange, t :: rest⟩ ∧
    (Parser.priorityAfter start).run (t :: rest) = .error ⟨.priorityRange, t :: rest⟩

section
variable {t : Token} {n : Int} (hk : t.kind = .number) (hdot : '.' ∉ t.text.toList)
include hk hdot

theorem Token.readAs_of_readInt? (h : readInt? t.text = some n) : t.ReadAs n := by
  intro expr start rest
  constructor
  · have hl : Literal.ofNumber t.text = .ok (.int n) := by simp [Literal.ofNumber, hdot, h]
    simp [Parser.value, Parser.run_next_cons, hk, hl, Except.map]
  · have hp : Priority.ofNumber t.text = .ok n := by simp [Priority.ofNumber, hdot, h]
    simp [Parser.priorityAfter, Parser.run_next_cons, hk, hp, Except.map]

theorem Token.outOfRange_of_readInt? (h : readInt? t.text = none) : t.OutOfRange := by
  intro expr start rest
  constructor
  · have hl : Literal.ofNumber t.text = .error .intRange := by simp [Literal.ofNumber, hdot, h]
    simp [Parser.value, Parser.run_next_cons, hk, hl, Except.map]
  · have hp : Priority.ofNumber t.text = .error .priorityRange := by simp [Priority.ofNumber, hdot, h]
    simp [Parser.priorityAfter, Parser.run_next_cons, hk, hp, Except.map]

theorem Token.readAs_iff : t.ReadAs n ↔ Numeral t.text.toList n ∧ InRange n := by
  rw [← readInt?_eq_some_iff]
  constructor
  · intro h
    have hn := (h (.fail .operand) t []).2
    cases hm : readInt? t.text with
    | none =>
      have hnone := (outOfRange_of_readInt? hk hdot hm (.fail .operand) t []).2
      rw [hn] at hnone
      cases hnone
    | some m =>
      have hsome := (readAs_of_readInt? hk hdot hm (.fail .operand) t []).2
      rw [hn] at hsome
      cases hsome
      rfl
  · exact readAs_of_readInt? hk hdot

theorem Token.outOfRange_of_not_readAs (h : ∀ n, ¬ t.ReadAs n) : t.OutOfRange := by
  apply outOfRange_of_readInt? hk hdot
  rw [Option.eq_none_iff_forall_ne_some]
  exact fun n hn => h n (readAs_of_readInt? hk hdot hn)

end

theorem inRange_iff {n : Int} : InRange n ↔ -2 ^ 63 ≤ n ∧ n ≤ 2 ^ 63 - 1 := by
  unfold InRange
  omega

/-! ## Digits in a source -/

theorem Digits.readAs {t : Token} (hk : t.kind = .number) (h : Digits t.text.toList)
    (hlt : decimal t.text.toList < 2 ^ 63) : t.ReadAs (decimal t.text.toList) := by
  rw [Token.readAs_iff hk h.not_dot_mem, inRange_iff]
  exact ⟨.plain h, by omega, by omega⟩

theorem Digits.outOfRange {t : Token} (hk : t.kind = .number) (h : Digits t.text.toList)
    (hle : 2 ^ 63 ≤ decimal t.text.toList) : t.OutOfRange := by
  refine Token.outOfRange_of_not_readAs hk h.not_dot_mem fun n hn => ?_
  obtain ⟨hn, hr⟩ := (Token.readAs_iff hk h.not_dot_mem).mp hn
  rw [inRange_iff] at hr
  have := hn.unique (.plain h)
  omega

/-! ## Texts -/

theorem Digits.tokenize_eq {ds : List Char} (h : Digits ds) : ∃ p, tokenize (.ofList ds) =
    .ok [⟨.number, .ofList ds, .between {} p⟩, .eof (.between p p)] :=
  ⟨_, Lexeme.tokenize_eq (.whole h.1 h.2 (by simp [NotBefore]) (by simp))⟩

theorem Digits.zeros {ds : List Char} (h : Digits ds) (k : Nat) :
    Digits (List.replicate k '0' ++ ds) := by
  refine ⟨by simp [h.1], fun c hc => ?_⟩
  rcases List.mem_append.mp hc with hc | hc
  · exact (List.mem_replicate.mp hc).2 ▸ digit_zero
  · exact h.2 c hc

/-- In a source, a number without a point is a run of digits. -/
theorem digits_of_tokenize {source : String} {ts : List Token} (h : tokenize source = .ok ts) {t : Token}
    (ht : t ∈ ts) (hk : t.kind = .number) (hdot : '.' ∉ t.text.toList) : Digits t.text.toList := by
  have hl : t.Lexed := (segmented_of_scan h).lexed t ht (by simp [hk])
  rcases hl.digits hk with ⟨cs, htext, hd⟩ | ⟨whole, fraction, htext, -, -⟩
  · rwa [htext, String.toList_ofList]
  · rw [htext, String.toList_ofList] at hdot
    exact absurd (by simp) hdot

theorem Unsigned.readAs {n : Int} (h : Unsigned n) (span : Span) :
    (Token.mk .number n.repr span).ReadAs n := by
  obtain ⟨_, -, -, hread⟩ := exists_repr_of_unsigned h
  exact Token.readAs_of_readInt? rfl (not_dot_mem_repr h) hread

theorem Unsigned.tokenize_eq {n : Int} (h : Unsigned n) : ∃ p, tokenize n.repr =
    .ok [⟨.number, n.repr, .between {} p⟩, .eof (.between p p)] := by
  obtain ⟨cs, hrepr, hd, -⟩ := exists_repr_of_unsigned h
  rw [hrepr]
  exact hd.tokenize_eq

/-- **Integers are read exactly.** A number without a point, from a source or not, is read at both places
as the integer that it is the numeral of, if 64 signed bits hold it, and refused at both places as out of
range if there is no such integer. So a run of digits in a source is read if and only if its value is
below `2 ^ 63`, with any number of zeros in front, and an integer without a sign is read again from its
canonical text. -/
theorem integers_read_exactly :
    (∀ t : Token, t.kind = .number → '.' ∉ t.text.toList →
      (∀ n, t.ReadAs n ↔ Numeral t.text.toList n ∧ -2 ^ 63 ≤ n ∧ n ≤ 2 ^ 63 - 1) ∧
      ((∀ n, ¬ t.ReadAs n) → t.OutOfRange)) ∧
    (Cause.intRange.message = "integer literal is out of range" ∧
      Cause.priorityRange.message = "priority is out of range") ∧
    (∀ source ts, tokenize source = .ok ts → ∀ t ∈ ts, t.kind = .number → '.' ∉ t.text.toList →
      Digits t.text.toList ∧
      (decimal t.text.toList < 2 ^ 63 → t.ReadAs (decimal t.text.toList)) ∧
      (2 ^ 63 ≤ decimal t.text.toList → t.OutOfRange)) ∧
    (∀ ds, Digits ds → ∀ k, decimal (List.replicate k '0' ++ ds) = decimal ds ∧
      ∃ p, tokenize (.ofList (List.replicate k '0' ++ ds)) =
        .ok [⟨.number, .ofList (List.replicate k '0' ++ ds), .between {} p⟩, .eof (.between p p)]) ∧
    (∀ n : Int, 0 ≤ n → n ≤ 2 ^ 63 - 1 →
      (∃ p, tokenize (Literal.int n).render =
        .ok [⟨.number, (Literal.int n).render, .between {} p⟩, .eof (.between p p)]) ∧
      ∀ span, (Token.mk .number (Literal.int n).render span).ReadAs n) := by
  refine ⟨fun t hk hdot => ⟨fun n => ?_, ?_⟩, ⟨rfl, rfl⟩, fun source ts hts t ht hk hdot => ?_,
    fun ds hds k => ?_, fun n h0 hn => ?_⟩
  · rw [Token.readAs_iff hk hdot, inRange_iff]
  · exact Token.outOfRange_of_not_readAs hk hdot
  · have hd := digits_of_tokenize hts ht hk hdot
    exact ⟨hd, hd.readAs hk, hd.outOfRange hk⟩
  · exact ⟨decimal_zeros k ds, (hds.zeros k).tokenize_eq⟩
  · have hu : Unsigned n := ⟨h0, by omega⟩
    exact ⟨hu.tokenize_eq, hu.readAs⟩

/-- The least integer, the one below it, and the largest one behind a zero. -/
theorem integers_read_exactly_bounds :
    (Token.mk .number "-9223372036854775808" {}).ReadAs (-2 ^ 63) ∧
    (Token.mk .number "-9223372036854775809" {}).OutOfRange ∧
    (Token.mk .number "09223372036854775807" {}).ReadAs (2 ^ 63 - 1) := by
  have hleast : Numeral "-9223372036854775808".toList (-2 ^ 63) :=
    intOfDigits?_eq_some_iff.mp (by decide)
  have hbelow : Numeral "-9223372036854775809".toList (-2 ^ 63 - 1) :=
    intOfDigits?_eq_some_iff.mp (by decide)
  have hlargest : Numeral "09223372036854775807".toList (2 ^ 63 - 1) :=
    intOfDigits?_eq_some_iff.mp (by decide)
  refine ⟨?_, ?_, ?_⟩
  · exact ((integers_read_exactly.1 _ rfl (by decide)).1 _).mpr ⟨hleast, by norm_num⟩
  · refine (integers_read_exactly.1 _ rfl (by decide)).2 fun n hn => ?_
    obtain ⟨hn, hr⟩ := ((integers_read_exactly.1 _ rfl (by decide)).1 n).mp hn
    obtain rfl := hn.unique hbelow
    omega
  · exact ((integers_read_exactly.1 _ rfl (by decide)).1 _).mpr ⟨hlargest, by norm_num⟩

end PolicyLang

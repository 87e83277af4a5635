import Mathlib.Data.List.TakeWhile
import PolicyLang.Proofs.Lexical.Language

/-!
# Words and numbers

The character classes of the lexical language are those of the lexer, its runs of characters are the
longest ones, and words have the kinds that they spell.
-/

namespace PolicyLang.Lexical

/-! ## Characters -/

theorem isBlank_iff {c : Char} :
    isBlank c = true ↔ c = ' ' ∨ c = '\t' ∨ c = '\r' ∨ c = '\n' := by
  simp [isBlank, or_assoc]

theorem isLetter_iff (c : Char) : isLetter c = true ↔ Letter c := by
  change ((decide ('A'.val ≤ c.val ∧ c.val ≤ 'Z'.val) || ('a'.val ≤ c.val && c.val ≤ 'z'.val)) ||
    c == '_') = true ↔ Letter c
  simp only [Letter, Bool.or_eq_true, Bool.and_eq_true, decide_eq_true_eq, beq_iff_eq, Char.le_def]
  constructor
  · rintro ((h | h) | h)
    · exact .inr (.inl h)
    · exact .inl h
    · exact .inr (.inr h)
  · rintro (h | h | h)
    · exact .inl (.inr h)
    · exact .inl (.inl h)
    · exact .inr h

theorem isDigit_iff (c : Char) : c.isDigit = true ↔ Digit c := by
  simp only [Char.isDigit, Digit, Bool.and_eq_true, decide_eq_true_eq, Char.le_def]

theorem isWordChar_iff (c : Char) : isWordChar c = true ↔ WordChar c := by
  rw [WordChar, ← isLetter_iff, ← isDigit_iff]
  simp only [isWordChar, isLetter, Char.isAlphanum, Bool.or_eq_true]
  exact or_right_comm

instance : DecidablePred Letter := fun _ => decidable_of_iff _ (isLetter_iff _)

instance : DecidablePred Digit := fun _ => decidable_of_iff _ (isDigit_iff _)

instance : DecidablePred WordChar := fun _ => decidable_of_iff _ (isWordChar_iff _)

theorem WordChar.not_blank {c : Char} (h : WordChar c) : isBlank c = false := by
  by_contra hb
  rw [Bool.not_eq_false, isBlank_iff] at hb
  rcases hb with rfl | rfl | rfl | rfl <;> revert h <;> decide

theorem Digit.not_letter {c : Char} (h : Digit c) : isLetter c = false := by
  by_contra hl
  rw [Bool.not_eq_false, isLetter_iff] at hl
  have h9 : c.val.toNat ≤ 57 := h.2
  rcases hl with ⟨ha, -⟩ | ⟨ha, -⟩ | rfl
  · have ha : 97 ≤ c.val.toNat := ha
    omega
  · have ha : 65 ≤ c.val.toNat := ha
    omega
  · exact absurd h9 (by decide)

/-! ## Runs of characters -/

section
variable {p : Char → Bool} {P : Char → Prop} (hp : ∀ c, p c = true ↔ P c)
include hp

theorem takeWhile_append {us vs : List Char} (hus : ∀ c ∈ us, P c) (hvs : NotBefore vs P) :
    (us ++ vs).takeWhile p = us ∧ (us ++ vs).dropWhile p = vs := by
  have hu : ∀ c ∈ us, p c = true := fun c hc => (hp c).mpr (hus c hc)
  rw [List.takeWhile_append_of_pos hu, List.dropWhile_append_of_pos hu]
  cases vs with
  | nil => simp
  | cons v vs =>
    have hv : ¬ p v = true := fun h => hvs v rfl ((hp v).mp h)
    simp [hv]

theorem of_mem_takeWhile {cs : List Char} : ∀ c ∈ cs.takeWhile p, P c :=
  fun c hc => (hp c).mp (List.mem_takeWhile_imp hc)

theorem notBefore_dropWhile (cs : List Char) : NotBefore (cs.dropWhile p) P := by
  intro c hc h
  have := List.head?_dropWhile_not p cs
  rw [Option.mem_def.mp hc] at this
  simp [(hp c).mpr h] at this

end

/-! ## Words -/

theorem reserved_spelling : ∀ x ∈ TokenKind.reserved, x.2.isKeyword = true ∧ x.1 = x.2.describe ∧
    TokenKind.categoryOf? x.1 = none := by
  decide

theorem mem_reserved_of_lookup {word : String} {k : TokenKind}
    (h : TokenKind.reserved.lookup word = some k) : (word, k) ∈ TokenKind.reserved := by
  obtain ⟨l, l', hl, -⟩ := List.lookup_eq_some_iff.mp h
  rw [hl]
  simp

theorem categoryOf?_eq_some_iff {word : String} {c : Category} :
    TokenKind.categoryOf? word = some c ↔ word.toList.map Char.toLower = c.name.toList := by
  have hall : c ∈ Category.all := by cases c <;> decide
  have hinj : ∀ d : Category, d.name.toList = c.name.toList → d = c := by
    intro d
    cases d <;> cases c <;> decide
  have hspell : ∀ d, TokenKind.categoryOf? word = some d →
      d.name.toList = word.toList.map Char.toLower := fun d hd =>
    beq_iff_eq.mp (List.find?_some (p := fun d : Category => d.name.toList ==
      word.toList.map Char.toLower) hd)
  constructor
  · exact fun h => (hspell c h).symm
  · intro h
    cases hd : TokenKind.categoryOf? word with
    | none => exact absurd (beq_iff_eq.mpr h.symm) (List.find?_eq_none.mp hd c hall)
    | some d => rw [hinj d ((hspell d hd).trans h)]

theorem ofWord?_describe {k : TokenKind} (hk : k.isKeyword = true) :
    TokenKind.ofWord? k.describe = some k := by
  cases k with
  | verb v => cases v <;> decide
  | category c => cases c <;> decide
  | boolean b => cases b <;> decide
  | kwPolicy | kwRule | kwImport | kwPriority | kwWhen | kwThen | kwTo | kwAnd | kwOr | kwNot => decide
  | _ => cases hk

theorem ofWord?_eq_some_iff {word : List Char} {k : TokenKind} :
    TokenKind.ofWord? (.ofList word) = some k ↔ Spells word k := by
  constructor
  · intro h
    rcases Option.or_eq_some_iff.mp h with h | ⟨-, h⟩
    · obtain ⟨hk, hd, -⟩ := reserved_spelling _ (mem_reserved_of_lookup h)
      exact ⟨hk, .inl (by rw [← hd, String.toList_ofList])⟩
    · obtain ⟨c, hc, rfl⟩ := Option.map_eq_some_iff.mp h
      rw [categoryOf?_eq_some_iff, String.toList_ofList] at hc
      exact ⟨rfl, .inr ⟨c, rfl, hc⟩⟩
  · rintro ⟨hk, rfl | ⟨c, rfl, hc⟩⟩
    · rw [String.ofList_toList]
      exact ofWord?_describe hk
    · have hc : TokenKind.categoryOf? (.ofList word) = some c := by
        rw [categoryOf?_eq_some_iff, String.toList_ofList]
        exact hc
      unfold TokenKind.ofWord?
      cases hl : TokenKind.reserved.lookup (String.ofList word) with
      | none => rw [hc]; rfl
      | some j =>
        obtain ⟨-, -, hn⟩ := reserved_spelling _ (mem_reserved_of_lookup hl)
        rw [hc] at hn
        cases hn

theorem ofWord_eq_iff {word : List Char} {k : TokenKind} :
    TokenKind.ofWord (.ofList word) = k ↔ WordKind word k := by
  unfold TokenKind.ofWord
  constructor
  · intro h
    cases hw : TokenKind.ofWord? (.ofList word) with
    | some j =>
      rw [hw] at h
      obtain rfl : j = k := h
      exact .keyword (ofWord?_eq_some_iff.mp hw)
    | none =>
      rw [hw] at h
      obtain rfl : TokenKind.ident = k := h
      exact .name fun j hj => by rw [ofWord?_eq_some_iff.mpr hj] at hw; cases hw
  · intro h
    cases h with
    | keyword hk => rw [ofWord?_eq_some_iff.mpr hk]; rfl
    | name hn =>
      cases hw : TokenKind.ofWord? (.ofList word) with
      | some j => exact absurd (ofWord?_eq_some_iff.mp hw) (hn j)
      | none => rfl

/-! ## Numbers -/

theorem splitNumber_lexeme {c : Char} {cs : List Char} (hc : Digit c) :
    Lexeme (splitNumber (c :: cs)).1 (splitNumber (c :: cs)).2 .number
      (.ofList (splitNumber (c :: cs)).1) := by
  have hne : (c :: cs).takeWhile Char.isDigit ≠ [] := by simp [(isDigit_iff _).mpr hc]
  have hds : ∀ d ∈ (c :: cs).takeWhile Char.isDigit, Digit d := of_mem_takeWhile isDigit_iff
  have hrest := notBefore_dropWhile isDigit_iff (c :: cs)
  unfold splitNumber
  split
  · rename_i d ds heq
    split
    · rename_i hd
      rw [List.dropWhile_cons_of_pos hd]
      exact .fraction hne hds (by simp [hd]) (of_mem_takeWhile isDigit_iff)
        (notBefore_dropWhile isDigit_iff ds)
    · rename_i hd
      rw [heq] at hrest
      refine .whole hne hds hrest ?_
      rintro _ ⟨⟩ e he
      rw [Option.mem_def, List.head?_cons, Option.some_inj] at he
      rw [← he]
      exact fun h => hd ((isDigit_iff _).mpr h)
  · rename_i hno
    apply Lexeme.whole hne hds hrest
    intro ds hds e he _
    cases ds with
    | nil => cases he
    | cons d ds => exact hno d ds hds

theorem splitNumber_whole {ds rest : List Char} (hds : ∀ d ∈ ds, Digit d)
    (hrest : NotBefore rest Digit) (hdot : ∀ cs, rest = '.' :: cs → NotBefore cs Digit) :
    splitNumber (ds ++ rest) = (ds, rest) := by
  obtain ⟨ht, hd⟩ := takeWhile_append isDigit_iff hds hrest
  unfold splitNumber
  rw [ht, hd]
  split
  · rename_i d cs
    have hn : ¬ d.isDigit = true := fun h => hdot _ rfl d rfl ((isDigit_iff _).mp h)
    rw [if_neg hn]
  · rfl

theorem splitNumber_fraction {ds fs rest : List Char} (hds : ∀ d ∈ ds, Digit d) (hne : fs ≠ [])
    (hfs : ∀ d ∈ fs, Digit d) (hrest : NotBefore rest Digit) :
    splitNumber (ds ++ '.' :: fs ++ rest) = (ds ++ '.' :: fs, rest) := by
  have hdot : NotBefore ('.' :: (fs ++ rest)) Digit := by rintro _ ⟨⟩; decide
  obtain ⟨ht, hd⟩ := takeWhile_append isDigit_iff hds hdot
  obtain ⟨ht', hd'⟩ := takeWhile_append isDigit_iff hfs hrest
  obtain ⟨f, fs, rfl⟩ := List.exists_cons_of_ne_nil hne
  have hf : f.isDigit = true := (isDigit_iff _).mpr (hfs f (by simp))
  unfold splitNumber
  rw [List.append_assoc, List.cons_append, ht, hd, List.cons_append]
  simp only [hf, if_true]
  rw [← List.cons_append, ht', hd']

end PolicyLang.Lexical

import PolicyLang.Proofs.Lexical.Positions
import PolicyLang.Proofs.Render.ConditionText

/-!
# Strings in canonical text

A string is written between double quotes, and nothing in it can end the literal or its line. It is cut
off whatever stands behind it, and is the same string again.
-/

namespace PolicyLang

open Lexical

theorem cut_write (v : String) (rest : List Char) : ∃ cs, Quoted.write v.toList ++ rest = '"' :: cs ∧
    cut '"' cs = .ok ⟨some (.string, v), Quoted.write v.toList, rest⟩ := by
  obtain ⟨c, cs, hcs, hcut⟩ := cut_lexeme (lexeme_write v rest)
  obtain ⟨rfl, -⟩ := List.cons.inj hcs
  exact ⟨cs, hcs, hcut⟩

theorem scan_write (v : String) (rest : List Char) (p : Pos) :
    scan p (Quoted.write v.toList ++ rest) =
      (scan ⟨p.line, p.column + (Quoted.write v.toList).length,
        p.offset + bytes (Quoted.write v.toList)⟩ rest).map
          (⟨.string, v, ⟨p.line, p.column, p.offset, p.offset + bytes (Quoted.write v.toList)⟩⟩ :: ·) := by
  rw [scan_lexeme (lexeme_write v rest), Pos.after_of_no_lineFeed (oneLine_quoted v.toList).1]
  rfl

/-- The text tells the string. -/
theorem eq_of_write_eq {u v : String} (h : Quoted.write u.toList = Quoted.write v.toList) : u = v := by
  obtain ⟨cs, hcs, hcut⟩ := cut_write u []
  obtain ⟨ds, hds, hcut'⟩ := cut_write v []
  rw [← h, hcs] at hds
  cases hds
  rw [hcut] at hcut'
  cases hcut'
  rfl

/-- **Strings cannot be broken out of.** Quoted text is cut off as one literal, whatever stands behind
it, and this is left as it is. The literal is the string that was written, on one line without line ends,
tabs and null characters in it. Alone, it is one token and the end mark, and no other string has the same
text. -/
theorem string_literal_read_back (v : String) :
    (∀ rest, ∃ cs, Quoted.write v.toList ++ rest = '"' :: cs ∧
      cut '"' cs = .ok ⟨some (.string, v), Quoted.write v.toList, rest⟩) ∧
    (∀ rest p, scan p (Quoted.write v.toList ++ rest) =
      (scan ⟨p.line, p.column + (Quoted.write v.toList).length,
        p.offset + bytes (Quoted.write v.toList)⟩ rest).map
          (⟨.string, v, ⟨p.line, p.column, p.offset, p.offset + bytes (Quoted.write v.toList)⟩⟩ :: ·)) ∧
    ('\n' ∉ Quoted.write v.toList ∧ '\r' ∉ Quoted.write v.toList ∧ '\t' ∉ Quoted.write v.toList ∧
      '\x00' ∉ Quoted.write v.toList) ∧
    tokenize (Literal.str v).render =
      .ok [⟨.string, v, ⟨1, 1, 0, bytes (Quoted.write v.toList)⟩⟩,
        .eof ⟨1, 1 + (Quoted.write v.toList).length, bytes (Quoted.write v.toList),
          bytes (Quoted.write v.toList)⟩] ∧
    ∀ u : String, Quoted.write u.toList = Quoted.write v.toList → u = v := by
  refine ⟨cut_write v, scan_write v, ⟨?_, ?_, ?_, ?_⟩, ?_, fun u => eq_of_write_eq⟩
  · exact not_mem_write (by simp) v.toList
  · exact not_mem_write (by simp) v.toList
  · exact not_mem_write (by simp) v.toList
  · exact not_mem_write (by simp) v.toList
  · have h := scan_write v [] {}
    rw [List.append_nil, scan_nil] at h
    simpa [tokenize, Literal.render, Span.between, Except.map] using h

end PolicyLang

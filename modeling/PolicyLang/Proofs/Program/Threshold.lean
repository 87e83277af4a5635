import Mathlib.Data.Nat.Find
import PolicyLang.Proofs.Program.Nesting
import PolicyLang.Proofs.Program.Places

/-!
# The nesting limit is a threshold

For each token list there is a limit from which on the result is always the same, and below which the
list is refused as nested too deeply. It is at most the number of tokens.
-/

namespace PolicyLang

/-- No other complaint is worded like the one about nesting. -/
theorem Cause.message_eq_tooDeep_iff {c : Cause} :
    c.message = "expression is nested too deeply" ↔ c = .tooDeep := by
  refine ⟨fun h => ?_, fun h => by rw [h]; rfl⟩
  unfold message at h
  cases c with
  | tooDeep => rfl
  -- these are put together from parts, but begin with a fixed text
  | policyClose | ruleClose | category | verb =>
    have hfront := congrArg (fun s : String => s.toList.take 4) h
    simp at hfront
  | _ => simp at h

namespace Program

/-- With this limit the list is refused as nested too deeply. -/
def RunsOut (limit : Nat) (ts : List Token) : Prop :=
  ∃ err, parse limit ts = .error err ∧ err.cause = .tooDeep

theorem parseBody_of_le {n m : Nat} (hnm : n ≤ m) (us : List Token) (e : Token) :
    (∃ err, parseBody n us e = .error err ∧ err.cause = .tooDeep) ∨
      parseBody m us e = parseBody n us e := by
  unfold parseBody
  rcases Parser.run_document_of_le hnm us with ⟨r, hr⟩ | h
  · rw [hr]
    exact .inl ⟨_, rfl, rfl⟩
  · rw [h]
    exact .inr rfl

theorem parse_of_le {n m : Nat} (hnm : n ≤ m) (ts : List Token) :
    RunsOut n ts ∨ parse m ts = parse n ts := by
  unfold RunsOut parse
  split
  · exact parseBody_of_le hnm _ _
  · exact parseBody_of_le hnm _ _
  · exact .inr rfl

theorem parseBody_length {n : Nat} {us : List Token} {e : Token} {err : SyntaxError}
    (hn : us.length ≤ n) (h : parseBody n us e = .error err) : err.cause ≠ .tooDeep := by
  unfold parseBody at h
  split at h
  · cases h
  · rename_i f hf
    cases h
    intro hc
    have hread := Parser.within_document n us
    rw [hf] at hread
    have := hread hc
    omega

theorem not_runsOut_length (ts : List Token) : ¬ RunsOut ts.length ts := by
  rintro ⟨err, h, hc⟩
  have hlen : (ts.takeWhile (·.kind != .eof)).length ≤ ts.length :=
    (List.takeWhile_sublist _).length_le
  unfold parse at h
  split at h
  · exact parseBody_length hlen h hc
  · exact parseBody_length hlen h hc
  · cases h
    cases hc

theorem nest_lt_of_parse {n : Nat} {ts : List Token} {p : Program} (h : parse n ts = .ok p) :
    ∀ e ∈ p.conditions, e.nest < n := by
  have hall := Parser.within_document n (ts.takeWhile (·.kind != .eof))
  rw [run_document_of_parse_eq_ok h] at hall
  exact shallow_flatMap hall

/-- **Threshold.** For each token list there is a limit, no larger than its number of tokens, from
which on the result is always the same and is not about nesting, and below which the list is refused
as nested too deeply. Conditions that are read nest less deep than the limit. -/
theorem parse_threshold (ts : List Token) :
    (∃ d ≤ ts.length, (∀ n, d ≤ n → parse n ts = parse d ts) ∧
      (∀ err, parse d ts = .error err → err.cause.message ≠ "expression is nested too deeply") ∧
      ∀ n < d, ∃ err, parse n ts = .error err ∧
        err.cause.message = "expression is nested too deeply") ∧
    ∀ n p, parse n ts = .ok p → ∀ e ∈ p.conditions, 1 + e.nest ≤ n := by
  classical
  have hex : ∃ d, ¬ RunsOut d ts := ⟨ts.length, not_runsOut_length ts⟩
  refine ⟨⟨Nat.find hex, Nat.find_min' hex (not_runsOut_length ts), fun n hn => ?_, fun err h => ?_,
    fun n hn => ?_⟩, fun n p h e he => ?_⟩
  · exact (parse_of_le hn ts).resolve_left (Nat.find_spec hex)
  · intro hm
    exact Nat.find_spec hex ⟨err, h, Cause.message_eq_tooDeep_iff.mp hm⟩
  · obtain ⟨err, h, hc⟩ := not_not.mp (Nat.find_min hex hn)
    exact ⟨err, h, Cause.message_eq_tooDeep_iff.mpr hc⟩
  · have := nest_lt_of_parse h e he
    omega

end Program

end PolicyLang

import Mathlib.Control.Monad.Basic
import Mathlib.Logic.Basic
import PolicyLang.Command

/-!
# Checking many files

The lines that the jobs print for their files, written out, and what `check` makes of them: it prints the
lines of the files in front of the first that cannot be read, and then the number of faulty files or what
is wrong with the file that cannot be read. The other jobs print the same lines for a single file.
-/

namespace PolicyLang

/-! ## Files -/

namespace Store

def Readable (store : Store) (file : String) : Prop := ∃ text : String, store file = some text.toUTF8

/-- Why a file cannot be read, as it is reported. -/
inductive Unreadable (store : Store) (file : String) : String → Prop
  | missing : store file = none → Unreadable store file
      "Error: Os \x7b code: 2, kind: NotFound, message: \"No such file or directory\" \x7d\n"
  | notText {bytes} : store file = some bytes → (∀ text : String, bytes ≠ text.toUTF8) →
      Unreadable store file
        "Error: Error \x7b kind: InvalidData, message: \"stream did not contain valid UTF-8\" \x7d\n"

def Compiles (store : Store) (file : String) : Prop :=
  ∃ (text : String) (p : Program), store file = some text.toUTF8 ∧ compile text = .ok p

/-- How many files there are in front of the first that cannot be read. -/
def reach (store : Store) (files : List String) : Nat :=
  (files.takeWhile fun file => (store.readText file).isOk).length

variable {store : Store} {file text : String}

theorem readText_eq_ok_iff : store.readText file = .ok text ↔ store file = some text.toUTF8 := by
  unfold readText
  cases store file with
  | none => simp
  | some bytes =>
    by_cases h : bytes.IsValidUTF8
    · simp only [String.fromUTF8?, h, ← String.toByteArray_inj, reduceDIte, String.toUTF8_eq_toByteArray,
        Except.ok.injEq, Option.some.injEq]
      exact Iff.rfl
    · have hne : bytes ≠ text.toUTF8 := by
        rintro rfl
        exact h text.isValidUTF8
      simpa [String.fromUTF8?, h] using hne

theorem text_unique {text' : String} (h : store file = some text.toUTF8)
    (h' : store file = some text'.toUTF8) : text = text' := by
  rw [← readText_eq_ok_iff] at h h'
  exact Except.ok.inj (h.symm.trans h')

theorem unreadable_of_readText {e : ReadError} (h : store.readText file = .error e) :
    store.Unreadable file e.report := by
  have hne (text : String) : store file ≠ some text.toUTF8 := by
    rw [ne_eq, ← readText_eq_ok_iff, h]
    simp
  unfold readText at h
  split at h
  · rename_i hnone
    cases h
    exact .missing hnone
  · rename_i bytes hsome
    split at h
    · cases h
      exact .notText hsome fun text heq => hne text (hsome.trans (congrArg some heq))
    · cases h

theorem reach_cases (store : Store) (files : List String) :
    (store.reach files = files.length ∧ ∀ file ∈ files, store.Readable file) ∨
    ∃ read file rest e, files = read ++ file :: rest ∧ store.reach files = read.length ∧
      (∀ file ∈ read, store.Readable file) ∧ store.readText file = .error e := by
  induction files with
  | nil => exact .inl ⟨rfl, List.forall_mem_nil _⟩
  | cons file files ih =>
    cases hf : store.readText file with
    | error e => exact .inr ⟨[], file, files, e, rfl, by simp [reach, hf, Except.toBool], by simp, hf⟩
    | ok text =>
      have hreach : store.reach (file :: files) = store.reach files + 1 := by
        simp [reach, hf, Except.toBool]
      have hfile : store.Readable file := ⟨text, readText_eq_ok_iff.mp hf⟩
      rcases ih with ⟨hn, hall⟩ | ⟨read, stop, rest, e, rfl, hn, hread, he⟩
      · refine .inl ⟨by rw [hreach, hn, List.length_cons], ?_⟩
        exact List.forall_mem_cons.mpr ⟨hfile, hall⟩
      · refine .inr ⟨file :: read, stop, rest, e, rfl, by rw [hreach, hn, List.length_cons], ?_, he⟩
        exact List.forall_mem_cons.mpr ⟨hfile, hread⟩

end Store

/-- The outcome with these lines in front of it. -/
def Outcome.after (oks errors : List String) (o : Outcome) : Outcome :=
  { o with stdout := String.join oks ++ o.stdout, stderr := String.join errors ++ o.stderr }

namespace Command

/-! ## The lines of the files -/

/-- The lines of files that can be read, those with a program and those without, in the files' order. -/
inductive Lines (store : Store) : List String → List String → List String → Prop
  | nil : Lines store [] [] []
  | ok {file text p files oks errors} : store file = some text.toUTF8 → compile text = .ok p →
      Lines store files oks errors →
      Lines store (file :: files)
        ((file ++ ": ok (" ++ p.statements.length.repr ++ " statements)\n") :: oks) errors
  | error {file text e files oks errors} : store file = some text.toUTF8 → compile text = .error e →
      Lines store files oks errors →
      Lines store (file :: files) oks
        ((file ++ ":" ++ e.line.repr ++ ":" ++ e.column.repr ++ ": " ++ e.message ++ "\n") :: errors)

variable {store : Store} {files others oks errors oks' errors' : List String} {file : String}

theorem exists_lines (h : ∀ file ∈ files, store.Readable file) :
    ∃ oks errors, Lines store files oks errors := by
  induction files with
  | nil => exact ⟨[], [], .nil⟩
  | cons file files ih =>
    rw [List.forall_mem_cons] at h
    obtain ⟨⟨text, htext⟩, h⟩ := h
    obtain ⟨oks, errors, hlines⟩ := ih h
    cases hc : compile text with
    | ok p => exact ⟨_, _, hlines.ok htext hc⟩
    | error e => exact ⟨_, _, hlines.error htext hc⟩

namespace Lines

theorem readable (h : Lines store files oks errors) : ∀ file ∈ files, store.Readable file := by
  induction h with
  | nil => exact List.forall_mem_nil _
  | ok htext _ _ ih => exact List.forall_mem_cons.mpr ⟨⟨_, htext⟩, ih⟩
  | error htext _ _ ih => exact List.forall_mem_cons.mpr ⟨⟨_, htext⟩, ih⟩

/-- Every file has one line, and what stands around it does not matter. -/
theorem unique (h : Lines store files oks errors) (h' : Lines store files oks' errors') :
    oks = oks' ∧ errors = errors' := by
  induction h generalizing oks' errors' with
  | nil => cases h'; exact ⟨rfl, rfl⟩
  | ok htext hc _ ih =>
    cases h' with
    | ok htext' hc' h' =>
      obtain rfl := Store.text_unique htext htext'
      obtain ⟨rfl, rfl⟩ := ih h'
      rw [hc] at hc'
      cases hc'
      exact ⟨rfl, rfl⟩
    | error htext' hc' _ =>
      obtain rfl := Store.text_unique htext htext'
      rw [hc] at hc'
      cases hc'
  | error htext hc _ ih =>
    cases h' with
    | ok htext' hc' _ =>
      obtain rfl := Store.text_unique htext htext'
      rw [hc] at hc'
      cases hc'
    | error htext' hc' h' =>
      obtain rfl := Store.text_unique htext htext'
      obtain ⟨rfl, rfl⟩ := ih h'
      rw [hc] at hc'
      cases hc'
      exact ⟨rfl, rfl⟩

theorem errors_eq_nil_iff (h : Lines store files oks errors) :
    errors = [] ↔ ∀ file ∈ files, store.Compiles file := by
  induction h with
  | nil => simp
  | ok htext hc _ ih =>
    rw [ih, List.forall_mem_cons]
    exact (and_iff_right ⟨_, _, htext, hc⟩).symm
  | error htext hc _ _ =>
    rw [List.forall_mem_cons]
    refine iff_of_false (List.cons_ne_nil _ _) fun ⟨⟨text, p, htext', hp⟩, _⟩ => ?_
    obtain rfl := Store.text_unique htext htext'
    rw [hc] at hp
    cases hp

theorem perm (h : Lines store files oks errors) (hp : files.Perm others) :
    ∃ oks' errors', Lines store others oks' errors' ∧ oks.Perm oks' ∧ errors.Perm errors' := by
  induction hp generalizing oks errors with
  | nil => exact ⟨oks, errors, h, .refl _, .refl _⟩
  | cons _ _ ih =>
    cases h with
    | ok htext hc h =>
      obtain ⟨_, _, h', hoks, herrors⟩ := ih h
      exact ⟨_, _, h'.ok htext hc, hoks.cons _, herrors⟩
    | error htext hc h =>
      obtain ⟨_, _, h', hoks, herrors⟩ := ih h
      exact ⟨_, _, h'.error htext hc, hoks, herrors.cons _⟩
  | swap =>
    cases h with
    | ok ht hc h =>
      cases h with
      | ok ht' hc' h => exact ⟨_, _, (h.ok ht hc).ok ht' hc', .swap .., .refl _⟩
      | error ht' hc' h => exact ⟨_, _, (h.ok ht hc).error ht' hc', .refl _, .refl _⟩
    | error ht hc h =>
      cases h with
      | ok ht' hc' h => exact ⟨_, _, (h.error ht hc).ok ht' hc', .refl _, .refl _⟩
      | error ht' hc' h => exact ⟨_, _, (h.error ht hc).error ht' hc', .refl _, .swap ..⟩
  | trans _ _ ih ih' =>
    obtain ⟨_, _, h, hoks, herrors⟩ := ih h
    obtain ⟨_, _, h, hoks', herrors'⟩ := ih' h
    exact ⟨_, _, h, hoks.trans hoks', herrors.trans herrors'⟩

/-! ## `check` -/

theorem checkRest_append {total failed : Nat} (h : Lines store files oks errors) (rest : List String) :
    checkRest store total failed (files ++ rest) =
      (checkRest store total (failed + errors.length) rest).after oks errors := by
  induction h generalizing failed with
  | nil => simp [Outcome.after]
  | ok htext hc _ ih =>
    rw [List.cons_append, checkRest, Store.readText_eq_ok_iff.mpr htext]
    simp only [hc, ih, okLine, Outcome.afterLine, Outcome.after, String.join_cons, String.append_assoc]
  | error htext hc _ ih =>
    rw [List.cons_append, checkRest, Store.readText_eq_ok_iff.mpr htext]
    simp only [hc, ih, CompileError.report, errorLine, Outcome.afterReport, Outcome.after, String.join_cons,
      String.append_assoc, List.length_cons, Nat.add_assoc, Nat.add_comm 1]

theorem run_check (h : Lines store files oks errors) : run store (check files) =
    ⟨String.join oks,
      String.join errors ++ (if errors = [] then "" else
        errors.length.repr ++ " of " ++ files.length.repr ++ " files failed\n"),
      if errors = [] then 0 else 1⟩ := by
  have hrun : checkRest store files.length 0 (files ++ []) = _ := h.checkRest_append []
  rw [List.append_nil, Nat.zero_add, checkRest] at hrun
  rw [run, hrun]
  by_cases hn : errors = []
  · simp [hn, Outcome.after]
  · simp [hn, Outcome.after, Outcome.failure, summary]

theorem run_check_of_readError {e : ReadError} {rest : List String} (h : Lines store files oks errors)
    (he : store.readText file = .error e) : run store (check (files ++ file :: rest)) =
    ⟨String.join oks, String.join errors ++ e.report, 1⟩ := by
  rw [run, h.checkRest_append, checkRest, he]
  simp [Outcome.after, Outcome.failure]

/-! ## One file -/

theorem run_parse (h : Lines store [file] oks errors) (canonical : Bool) :
    (run store (parse file canonical)).stderr = String.join errors ∧
    (run store (parse file canonical)).exitCode = if errors = [] then 0 else 1 := by
  cases h with
  | ok htext hc h =>
    cases h
    simp [run, runParse, Store.readText_eq_ok_iff.mpr htext, hc]
  | error htext hc h =>
    cases h
    simp [run, runParse, Store.readText_eq_ok_iff.mpr htext, hc, Outcome.failure, CompileError.report,
      errorLine]

theorem run_tokens (h : Lines store [file] oks errors) (ht : (run store (tokens file)).exitCode ≠ 0) :
    errors ≠ [] ∧ run store (tokens file) = ⟨"", String.join errors, 1⟩ ∧
      ∀ canonical, run store (parse file canonical) = ⟨"", String.join errors, 1⟩ := by
  obtain ⟨text, htext⟩ := h.readable file (List.mem_singleton_self _)
  have hread := Store.readText_eq_ok_iff.mpr htext
  rw [run, runTokens, hread] at ht
  cases hk : tokenize text with
  | ok ts => simp [hk] at ht
  | error e =>
    have hc : compile text = .error (.lexical e) := compileWithin_of_lexError hk
    obtain ⟨-, rfl⟩ := h.unique (.error htext hc .nil)
    refine ⟨List.cons_ne_nil _ _, ?_, fun canonical => ?_⟩
    · simp [run, runTokens, hread, hk, Outcome.failure, LexError.report, errorLine, CompileError.line,
        CompileError.column, CompileError.message]
    · simp [run, runParse, hread, hc, Outcome.failure, CompileError.report, errorLine]

/-- What is said of a file in a list is what is said of it alone. -/
theorem join_map (h : Lines store files oks errors) (canonical : Bool) :
    String.join oks = String.join (files.map fun file => (run store (check [file])).stdout) ∧
    String.join errors =
      String.join (files.map fun file => (run store (parse file canonical)).stderr) := by
  induction h with
  | nil => exact ⟨rfl, rfl⟩
  | ok htext hc _ ih =>
    have hone := Lines.ok htext hc .nil
    obtain ⟨hoks, herrors⟩ := ih
    simp [run_check hone, (run_parse hone canonical).1, ← hoks, ← herrors]
  | error htext hc _ ih =>
    have hone := Lines.error htext hc .nil
    obtain ⟨hoks, herrors⟩ := ih
    simp [run_check hone, (run_parse hone canonical).1, ← hoks, ← herrors]

end Lines

/-! ## One file and many -/

/-- `check` prints the lines of the files that it reaches, and no others: it ends with the number of
faulty files, or with what is wrong with the first file that cannot be read. -/
structure Checked (store : Store) (files oks errors : List String) : Prop where
  lines : Lines store (files.take (store.reach files)) oks errors
  done : store.reach files = files.length → run store (check files) =
    ⟨String.join oks,
      String.join errors ++ (if errors = [] then "" else
        errors.length.repr ++ " of " ++ files.length.repr ++ " files failed\n"),
      if errors = [] then 0 else 1⟩
  stopped : store.reach files < files.length → ∃ file report,
    files[store.reach files]? = some file ∧ store.Unreadable file report ∧
    run store (check files) = ⟨String.join oks, String.join errors ++ report, 1⟩
  exitCode : (run store (check files)).exitCode = 0 ↔ ∀ file ∈ files, store.Compiles file
  separate : ∀ canonical,
    String.join oks = String.join ((files.take (store.reach files)).map fun file =>
      (run store (check [file])).stdout) ∧
    String.join errors = String.join ((files.take (store.reach files)).map fun file =>
      (run store (parse file canonical)).stderr)

/-- In another order the files have the same lines, in another order too, and the same end. -/
def Reordered (store : Store) (files others : List String) : Prop :=
  ∃ oks errors oks' errors' last code,
    Lines store files oks errors ∧ Lines store others oks' errors' ∧
    oks.Perm oks' ∧ errors.Perm errors' ∧
    run store (check files) = ⟨String.join oks, String.join errors ++ last, code⟩ ∧
    run store (check others) = ⟨String.join oks', String.join errors' ++ last, code⟩

/-- The jobs of a single file find the same error in it. -/
structure Alone (store : Store) (file : String) (oks errors : List String) : Prop where
  lines : Lines store [file] oks errors
  checked : run store (check [file]) =
    ⟨String.join oks, String.join errors ++ (if errors = [] then "" else "1 of 1 files failed\n"),
      if errors = [] then 0 else 1⟩
  parsed : ∀ canonical, (run store (parse file canonical)).stderr = String.join errors ∧
    (run store (parse file canonical)).exitCode = if errors = [] then 0 else 1
  cut : (run store (tokens file)).exitCode ≠ 0 → errors ≠ [] ∧
    run store (tokens file) = ⟨"", String.join errors, 1⟩ ∧
    ∀ canonical, run store (parse file canonical) = ⟨"", String.join errors, 1⟩

theorem exists_checked (store : Store) (files : List String) :
    ∃ oks errors, Checked store files oks errors := by
  rcases store.reach_cases files with ⟨hn, hall⟩ | ⟨read, stop, rest, e, rfl, hn, hread, he⟩
  · obtain ⟨oks, errors, h⟩ := exists_lines hall
    have hrun := h.run_check
    refine ⟨oks, errors, ⟨?_, fun _ => hrun, fun hlt => by omega, ?_, ?_⟩⟩
    · rwa [hn, List.take_length]
    · rw [hrun, ← h.errors_eq_nil_iff]
      simp
    · rw [hn, List.take_length]
      exact h.join_map
  · obtain ⟨oks, errors, h⟩ := exists_lines hread
    have hrun : run store (check (read ++ stop :: rest)) = _ := h.run_check_of_readError he
    have hunreadable := Store.unreadable_of_readText he
    refine ⟨oks, errors, ⟨?_, fun hlen => ?_, fun _ => ⟨stop, _, by simp [hn], hunreadable, hrun⟩, ?_, ?_⟩⟩
    · rwa [hn, List.take_left]
    · rw [hn, List.length_append, List.length_cons] at hlen
      omega
    · rw [hrun]
      refine iff_of_false (by simp) fun hall => ?_
      obtain ⟨text, p, htext, -⟩ := hall stop (by simp)
      rw [← Store.readText_eq_ok_iff, he] at htext
      cases htext
    · rw [hn, List.take_left]
      exact h.join_map

theorem reordered (h : ∀ file ∈ files, store.Readable file) (hp : files.Perm others) :
    Reordered store files others := by
  obtain ⟨oks, errors, hlines⟩ := exists_lines h
  obtain ⟨oks', errors', hlines', hoks, herrors⟩ := hlines.perm hp
  refine ⟨oks, errors, oks', errors', _, _, hlines, hlines', hoks, herrors, hlines.run_check, ?_⟩
  have hnil : errors = [] ↔ errors' = [] := by
    rw [← List.length_eq_zero_iff, herrors.length_eq, List.length_eq_zero_iff]
  rw [hlines'.run_check, herrors.length_eq, hp.length_eq]
  simp only [hnil]

theorem exists_alone (h : store.Readable file) : ∃ oks errors, Alone store file oks errors := by
  obtain ⟨oks, errors, hlines⟩ := exists_lines (List.forall_mem_singleton.mpr h)
  refine ⟨oks, errors, ⟨hlines, ?_, hlines.run_parse, hlines.run_tokens⟩⟩
  have hsummary : (1 : Nat).repr ++ " of " ++ (1 : Nat).repr ++ " files failed\n" =
    "1 of 1 files failed\n" := by decide
  rw [hlines.run_check]
  cases hlines with
  | ok _ _ h => cases h; rfl
  | error _ _ h => cases h; simp only [List.length_singleton, hsummary]

/-- **File by file.** `check` prints one line for each file in front of the first that cannot be read, and
then how many of the files are faulty, or what is wrong with the file that cannot be read. Its exit code is
zero if and only if all files have programs. The line of a file is its line alone, and in another order the
files have the same lines. On a single file all jobs find the same error. -/
theorem commands_agree (store : Store) :
    (∀ files, ∃ oks errors, Checked store files oks errors) ∧
    (∀ files others, (∀ file ∈ files, store.Readable file) → files.Perm others →
      Reordered store files others) ∧
    ∀ file, store.Readable file → ∃ oks errors, Alone store file oks errors :=
  ⟨exists_checked store, fun _ _ h hp => reordered h hp, fun _ h => exists_alone h⟩

/-- A file with a program, a file that ends within a literal, one that ends within a rule, and one that is
not there. -/
theorem commands_agree_faults : ∃ store : Store,
    run store (check ["a", "b", "d"]) =
      ⟨"a: ok (1 statements)\n",
        "b:1:1: unterminated string literal at line 1, column 1\n" ++
          "d:1:5: syntax error at line 1, column 5: expected rule name after 'rule' " ++
          "(found end of file '')\n" ++ "2 of 3 files failed\n", 1⟩ ∧
    run store (check ["b", "a", "c", "d"]) =
      ⟨"a: ok (1 statements)\n",
        "b:1:1: unterminated string literal at line 1, column 1\n" ++
          "Error: Os \x7b code: 2, kind: NotFound, message: \"No such file or directory\" \x7d\n", 1⟩ ∧
    (∀ file ∈ ["a", "b", "d"], store.Readable file) ∧
    Reordered store ["a", "b", "d"] ["b", "a", "d"] ∧
    run store (check ["b"]) =
      ⟨"", "b:1:1: unterminated string literal at line 1, column 1\n" ++ "1 of 1 files failed\n", 1⟩ ∧
    run store (tokens "b") = ⟨"", "b:1:1: unterminated string literal at line 1, column 1\n", 1⟩ ∧
    run store (parse "b" true) = ⟨"", "b:1:1: unterminated string literal at line 1, column 1\n", 1⟩ := by
  let store : Store := fun file => match file with
    | "a" => some "import \"x\"".toUTF8
    | "b" => some "\"".toUTF8
    | "d" => some "rule".toUTF8
    | _ => none
  have ha : store "a" = some "import \"x\"".toUTF8 := rfl
  have hb : store "b" = some "\"".toUTF8 := rfl
  have hd : store "d" = some "rule".toUTF8 := rfl
  have hc : store.readText "c" = .error .missing := rfl
  have hca : compile "import \"x\"" =
    .ok ⟨[.imports ⟨"x", ⟨1, 1, 0, 10⟩⟩], ⟨1, 1, 0, 10⟩⟩ := by decide +kernel
  have hcb : compile "\"" = .error (.lexical ⟨.unclosedString, 1, 1⟩) := by decide +kernel
  have hcd : compile "rule" = .error (.grammatical ⟨.ruleName, .eof, "", 1, 5⟩) := by decide +kernel
  have hra := Store.readText_eq_ok_iff.mpr ha
  have hrb := Store.readText_eq_ok_iff.mpr hb
  have hrd := Store.readText_eq_ok_iff.mpr hd
  have hreads : ∀ file ∈ ["a", "b", "d"], store.Readable file := by
    simp only [List.forall_mem_cons, List.not_mem_nil, false_imp_iff, implies_true, and_true]
    exact ⟨⟨_, ha⟩, ⟨_, hb⟩, ⟨_, hd⟩⟩
  obtain ⟨hmany, horder, halone⟩ := commands_agree store
  refine ⟨store, ?_, ?_, hreads, horder _ _ hreads (.swap ..), ?_⟩
  · have hreach : store.reach ["a", "b", "d"] = 3 := by simp [Store.reach, hra, hrb, hrd, Except.toBool]
    obtain ⟨oks, errors, h⟩ := hmany ["a", "b", "d"]
    have hlines := h.lines
    rw [hreach] at hlines
    obtain ⟨rfl, rfl⟩ := hlines.unique (.ok ha hca (.error hb hcb (.error hd hcd .nil)))
    exact (h.done hreach).trans (by decide +kernel)
  · have hreach : store.reach ["b", "a", "c", "d"] = 2 := by simp [Store.reach, hra, hrb, hc, Except.toBool]
    obtain ⟨oks, errors, h⟩ := hmany ["b", "a", "c", "d"]
    have hlines := h.lines
    rw [hreach] at hlines
    obtain ⟨rfl, rfl⟩ := hlines.unique (.error hb hcb (.ok ha hca .nil))
    obtain ⟨file, report, hfile, hreport, hrun⟩ := h.stopped (by rw [hreach]; decide)
    rw [hreach] at hfile
    cases hfile
    cases hreport with
    | missing => exact hrun.trans (by decide +kernel)
    | notText hbytes => cases hbytes
  · obtain ⟨oks, errors, h⟩ := halone "b" ⟨_, hb⟩
    obtain ⟨rfl, rfl⟩ := h.lines.unique (.error hb hcb .nil)
    have ht : (run store (tokens "b")).exitCode ≠ 0 := by
      have hquote : tokenize "\"" = .error ⟨.unclosedString, 1, 1⟩ := by decide +kernel
      simp [run, runTokens, hrb, hquote, Outcome.failure]
    obtain ⟨-, htokens, hparse⟩ := h.cut ht
    exact ⟨h.checked.trans (by decide), htokens.trans (by decide), (hparse true).trans (by decide)⟩

end Command

end PolicyLang

import PolicyLang.Proofs.Cursor.Conditions
import PolicyLang.Proofs.Grammar.Acceptance

/-!
# Programs behind a cursor

The productions of programs follow the parsers of programs. So reading with a cursor comes to an end from
every token list, and to what `Program.parse` gives.
-/

namespace PolicyLang

open Script Production PolicyLang.Parser

def Parser.refAfter (start : Token) : Parser RuleRef := do
  let name ← expect .ident .ruleName
  pure ⟨name.text, start.span.to name.span⟩

/-- A name and a colon come next. -/
def Declared (us : List Token) : Prop :=
  ∃ u v vs, us = u :: v :: vs ∧ u.kind = .ident ∧ v.kind = .colon

section
variable {us : List Token} (t : Token) (n : Nat)

theorem Parser.run_ruleItemAfter_rule (h : Declared us) :
    (ruleItemAfter n t).run us = (PolicyItem.rule <$> ruleAfter n t).run us := by
  obtain ⟨u, v, vs, rfl, hu, hv⟩ := h
  have hrule : (ruleAfter n t).run (u :: v :: vs) = (ruleAfterName n t u).run vs := by
    rw [ruleAfter, run_bind, run_expect_cons, if_pos hu]
    dsimp only
    rw [run_bind, run_expect_cons, if_pos hv]
  rw [ruleItemAfter, run_bind, run_expect_cons, if_pos hu]
  dsimp only
  rw [run_branch_cons, if_pos hv]
  show (ruleAfterName n t u >>= fun r => pure (PolicyItem.rule r)).run vs =
    (ruleAfter n t >>= fun r => pure (PolicyItem.rule r)).run (u :: v :: vs)
  rw [run_bind, run_bind, hrule]

theorem Parser.run_ruleItemAfter_ref (h : ¬ Declared us) :
    (ruleItemAfter n t).run us = (PolicyItem.ref <$> refAfter t).run us := by
  have href : PolicyItem.ref <$> refAfter t = (expect .ident .ruleName >>= fun name =>
      pure (PolicyItem.ref ⟨name.text, t.span.to name.span⟩)) := bind_assoc ..
  rw [href, ruleItemAfter, run_bind, run_bind]
  cases us with
  | nil => rfl
  | cons u us =>
    rw [run_expect_cons]
    by_cases hu : u.kind = .ident
    · rw [if_pos hu]
      cases us with
      | nil => rfl
      | cons v vs =>
        have hv : v.kind ≠ .colon := fun hv => h ⟨u, v, vs, rfl, hu, hv⟩
        dsimp only
        rw [run_branch_cons, if_neg hv]
    · rw [if_neg hu]

end

namespace Scene

variable {S : Scene} {us : List Token} {t : Token} {n : Nat} {α β : Type}

/-! ## Clauses -/

theorem tracks_category : S.Tracks (production .category) n Parser.category := by
  refine tracks_production (fun us hus => ?_) fun _ => consumes_next _ _
  refine .current hus ?_
  cases us with
  | nil =>
    rw [next_nil, S.isEnd]
    exact follows_fail .category hus
  | cons t us =>
    rw [next_cons, Parser.category, run_next_cons]
    cases ht : t.kind with
    | category c => exact .advance hus (follows_pure c)
    | _ => exact follows_fail .category hus

theorem follows_plain (verdict : Verdict) (hus : t :: us <:+ S.body) :
    S.Follows (body.plain verdict) (t :: us) n ((plainAction t verdict).run us) := by
  have hus' : us <:+ S.body := (List.suffix_cons t us).trans hus
  refine .advance hus (.current hus' ?_)
  cases us with
  | nil =>
    rw [next_nil, S.isEnd, if_neg (by decide)]
    exact follows_pure _
  | cons u us =>
    rw [next_cons, plainAction, run_bind, run_refuse_cons]
    by_cases hu : u.kind = .kwTo
    · rw [if_pos hu, if_pos (by simp [hu])]
      exact follows_fail .strayTarget hus'
    · rw [if_neg hu, if_neg (by simp [hu])]
      exact follows_pure _

theorem follows_route (hus : t :: us <:+ S.body) (ht : t.kind = .verb .route) :
    S.Follows (production .route) (t :: us) n ((actionAfter t .route).run us) := by
  refine follows_headed rfl hus ht fun hus' => ?_
  refine .bind (follows_expect .routeTo (by decide) hus') fun _ rest _ hrest => ?_
  exact .bind (follows_expect .routeTarget (by decide) (hrest.trans hus')) fun _ _ _ _ => follows_pure _

theorem tracks_action : S.Tracks (production .action) n Parser.action := by
  refine tracks_production (fun us hus => ?_) fun _ => consumes_next _ _
  refine .current hus ?_
  cases us with
  | nil =>
    rw [next_nil, S.isEnd]
    exact follows_fail .verb hus
  | cons t us =>
    rw [next_cons, Parser.action, run_next_cons]
    cases ht : t.kind with
    | verb v =>
      cases v with
      | deny => exact follows_plain .deny hus
      | allow => exact follows_plain .allow hus
      | escalate => exact follows_plain .escalate hus
      | route => exact follows_route hus ht
    | _ => exact follows_fail .verb hus

theorem follows_action {v : Verb} (hus : t :: us <:+ S.body) (ht : t.kind = .verb v) :
    S.Follows (production .action) (t :: us) n ((actionAfter t v).run us) := by
  have h := tracks_action (n := n) (t :: us) hus
  rwa [Parser.action, run_next_cons, ht] at h

theorem follows_priority (hus : t :: us <:+ S.body) (ht : t.kind = .kwPriority) :
    S.Follows (production .priority) (t :: us) n ((priorityAfter t).run us) := by
  refine follows_headed rfl hus ht fun hus' => ?_
  cases us with
  | nil => exact .expect_other hus' (kind_mark_ne (by decide))
  | cons u us =>
    rw [priorityAfter, run_next_cons]
    by_cases hu : u.kind = .number
    · rw [if_pos hu]
      refine .expect_cons hus' hu ?_
      cases Priority.ofNumber u.text with
      | error c => exact follows_failAt ⟨c, u :: us⟩
      | ok k => exact follows_pure _
    · rw [if_neg hu]
      exact .expect_other hus' hu

theorem follows_guard (he : S.Tracks (production .expression) n (expression n))
    (hus : t :: us <:+ S.body) (ht : t.kind = .kwWhen) :
    S.Follows (production .guard) (t :: us) n ((guardAfter n t).run us) := by
  refine follows_headed rfl hus ht fun hus' => ?_
  refine .bind (he us hus') fun _ vs _ hvs => ?_
  refine .bind (follows_expect .thenWord (by decide) (hvs.trans hus')) fun _ ws _ hws => ?_
  exact .bind (tracks_action ws (hws.trans (hvs.trans hus'))) fun _ _ _ _ => follows_pure _

/-! ## Declarations -/

theorem follows_ruleRef (hus : t :: us <:+ S.body) (ht : t.kind = .kwRule) :
    S.Follows (production .ruleRef) (t :: us) n ((refAfter t).run us) := by
  refine follows_headed rfl hus ht fun hus' => ?_
  exact .bind (follows_expect .ruleName (by decide) hus') fun _ _ _ _ => follows_pure _

theorem follows_imports (hus : t :: us <:+ S.body) (ht : t.kind = .kwImport) :
    S.Follows (production .imports) (t :: us) n ((importAfter t).run us) := by
  refine follows_headed rfl hus ht fun hus' => ?_
  exact .bind (follows_expect .importPath (by decide) hus') fun _ _ _ _ => follows_pure _

theorem follows_block {p : Production α} {q : Token → Parser α} {k : TokenKind} {m : String}
    {noName noColon noOpen : Cause} {items : Production (List β)} {read : Token → Step β}
    {noClose : String → Cause} {make : String → Category → List β → Span → α}
    (hbody : p.body = body.block k m noName noColon noOpen items noClose make)
    (hq : ∀ start, q start = (do
      let name ← expect .ident noName
      let _ ← expect .colon noColon
      let category ← Parser.category
      let _ ← expect .lbrace noOpen
      let body ← many read
      let close ← expect .rbrace (noClose name.text)
      pure (make name.text category body (start.span.to close.span))))
    (hus : t :: us <:+ S.body) (ht : t.kind = k) (hitems : S.Tracks (production items) n (many read)) :
    S.Follows (production p) (t :: us) n ((q t).run us) := by
  refine follows_headed hbody hus ht fun hus => ?_
  rw [hq]
  refine .bind (follows_expect noName (by decide) hus) fun name us _ hsuf => ?_
  have hus := hsuf.trans hus
  refine .bind (follows_expect noColon (by decide) hus) fun _ us _ hsuf => ?_
  have hus := hsuf.trans hus
  refine .bind (tracks_category us hus) fun _ us _ hsuf => ?_
  have hus := hsuf.trans hus
  refine .bind (follows_expect noOpen (by decide) hus) fun _ us _ hsuf => ?_
  have hus := hsuf.trans hus
  refine .bind (hitems us hus) fun _ us _ hsuf => ?_
  exact .bind (follows_expect (noClose name.text) (by decide) (hsuf.trans hus)) fun _ _ _ _ =>
    follows_pure _

theorem declared_iff (t : Token) : Declared us ↔
    ((t :: us)[1]?.getD S.mark).kind = .ident ∧ ((t :: us)[2]?.getD S.mark).kind = .colon := by
  match us with
  | [] => simp [Declared, S.isEnd]
  | [u] => simp [Declared, S.isEnd]
  | u :: v :: vs => simp [Declared, and_assoc]

/-- The two tokens behind the next one tell a declaration from a reference. -/
theorem Follows.declares {f : Bool → Script α} {out : Except Failure (α × List Token)} {b : Bool}
    (hus : t :: us <:+ S.body) (hb : b = true ↔ Declared us) (h : S.Follows (f b) (t :: us) n out) :
    S.Follows (declares >>= f) (t :: us) n out := by
  show S.Follows (Script.operation (.peek 1) >>= fun name => (if name.kind = .ident then
      Script.operation (.peek 2) >>= fun colon => pure (colon.kind == .colon)
    else pure false) >>= f) _ _ _
  refine .operation (exec_peek hus 1) (List.suffix_refl _) ?_
  by_cases hname : ((t :: us)[1]?.getD S.mark).kind = .ident
  · have hcolon : (((t :: us)[2]?.getD S.mark).kind == .colon) = b := by
      rw [Bool.eq_iff_iff, hb, declared_iff t, beq_iff_eq]
      exact (and_iff_right hname).symm
    rw [if_pos hname]
    refine .operation (exec_peek hus 2) (List.suffix_refl _) ?_
    rw [hcolon]
    exact h
  · have hfalse : b = false := by
      rw [← Bool.not_eq_true, hb, declared_iff t]
      exact fun hd => hname hd.1
    rw [if_neg hname]
    exact hfalse ▸ h

theorem follows_item {p : Production α} {q : Parser α} {wrap : α → β} {read : Token → Step β}
    {loop : List β → Production (List β)} {items : List β} (hus : t :: us <:+ S.body)
    (next : ∀ vs items, vs <:+ S.body → vs.length < (t :: us).length →
      S.Follows (production (loop items)) vs n
        ((gather (fun items a => items ++ [a]) read items).run vs))
    (h : S.Follows (production p) (t :: us) n (q.run us)) :
    S.Follows (production p >>= fun a => production (loop (items ++ [wrap a]))) (t :: us) n
      ((wrap <$> q >>= fun a => gather (fun items a => items ++ [a]) read (items ++ [a])).run us) := by
  rw [bind_map_left]
  refine .bind h fun a rest hrun hrest => next rest _ (hrest.trans hus) ?_
  exact Nat.lt_succ_of_le (q.suffix_of_ok hrun).length_le

section
variable (he : S.Tracks (production .expression) n (expression n))
include he

theorem tracks_ruleItems : S.Tracks (production (.ruleItems [])) n (many (ruleStep n)) := by
  rw [many_eq_gather]
  refine tracks_loop (fun _ => rfl) (fun us hus next items => ?_) []
  refine .current hus ?_
  cases us with
  | nil =>
    rw [next_nil, S.isEnd, run_gather_nil]
    exact follows_pure items
  | cons t us =>
    rw [next_cons, run_gather_cons, ruleStep, clauseAfter?]
    cases ht : t.kind with
    | rbrace => exact follows_pure items
    | kwWhen => exact follows_item hus next (follows_guard he hus ht)
    | kwPriority => exact follows_item hus next (follows_priority hus ht)
    | verb v => exact follows_item hus next (follows_action hus ht)
    | eof => exact absurd ht (kind_ne_eof hus)
    | _ => exact follows_fail .ruleItem hus

theorem follows_rule (hus : t :: us <:+ S.body) (ht : t.kind = .kwRule) :
    S.Follows (production .rule) (t :: us) n ((ruleAfter n t).run us) :=
  follows_block rfl (fun _ => rfl) hus ht (tracks_ruleItems he)

theorem follows_ruleItem {items : List PolicyItem} (hus : t :: us <:+ S.body) (ht : t.kind = .kwRule)
    (next : ∀ vs items, vs <:+ S.body → vs.length < (t :: us).length →
      S.Follows (production (policyItems items)) vs n
        ((gather (fun items a => items ++ [a]) (policyStep n) items).run vs)) :
    S.Follows (declares >>= fun declaration =>
        if declaration then production rule >>= fun r => production (policyItems (items ++ [.rule r]))
        else production ruleRef >>= fun r => production (policyItems (items ++ [.ref r]))) (t :: us) n
      ((ruleItemAfter n t >>= fun a =>
        gather (fun items a => items ++ [a]) (policyStep n) (items ++ [a])).run us) := by
  by_cases hd : Declared us
  · rw [run_bind_congr (run_ruleItemAfter_rule t n hd)]
    exact .declares hus (b := true) (by simp [hd]) (follows_item hus next (follows_rule he hus ht))
  · rw [run_bind_congr (run_ruleItemAfter_ref t n hd)]
    exact .declares hus (b := false) (by simp [hd]) (follows_item hus next (follows_ruleRef hus ht))

theorem tracks_policyItems : S.Tracks (production (.policyItems [])) n (many (policyStep n)) := by
  rw [many_eq_gather]
  refine tracks_loop (fun _ => rfl) (fun us hus next items => ?_) []
  refine .current hus ?_
  cases us with
  | nil =>
    rw [next_nil, S.isEnd, run_gather_nil]
    exact follows_pure items
  | cons t us =>
    rw [next_cons, run_gather_cons, policyStep, clauseAfter?]
    cases ht : t.kind with
    | rbrace => exact follows_pure items
    | kwRule => exact follows_ruleItem he hus ht next
    | kwWhen =>
      dsimp only
      rw [Functor.map_map]
      exact follows_item hus next (follows_guard he hus ht)
    | kwPriority =>
      dsimp only
      rw [Functor.map_map]
      exact follows_item hus next (follows_priority hus ht)
    | verb v =>
      dsimp only
      rw [Functor.map_map]
      exact follows_item hus next (follows_action hus ht)
    | eof => exact absurd ht (kind_ne_eof hus)
    | _ => exact follows_fail .policyItem hus

theorem follows_policy (hus : t :: us <:+ S.body) (ht : t.kind = .kwPolicy) :
    S.Follows (production .policy) (t :: us) n ((policyAfter n t).run us) :=
  follows_block rfl (fun _ => rfl) hus ht (tracks_policyItems he)

/-! ## Programs -/

theorem tracks_statements : S.Tracks (production (.statements [])) n (document n) := by
  rw [document, many_eq_gather]
  refine tracks_loop (fun _ => rfl) (fun us hus next items => ?_) []
  refine .operation (exec_atEnd hus) (List.suffix_refl us) ?_
  cases us with
  | nil =>
    rw [run_gather_nil]
    exact follows_pure items
  | cons t us =>
    refine .current hus ?_
    rw [next_cons, run_gather_cons, statementStep]
    cases ht : t.kind with
    | kwPolicy => exact follows_item hus next (follows_policy he hus ht)
    | kwRule => exact follows_item hus next (follows_rule he hus ht)
    | kwImport => exact follows_item hus next (follows_imports hus ht)
    | _ => exact follows_fail .statement hus

theorem follows_program : S.Follows (production .program) S.body n
    ((document n >>= fun statements => pure ⟨statements, ⟨1, 1, 0, S.mark.span.stop⟩⟩).run S.body) := by
  refine follows_production (List.suffix_refl _) ?_ nofun
  refine .bind (tracks_statements he S.body (List.suffix_refl _)) fun statements rest hrun hrest => ?_
  obtain rfl := rest_of_run_document_eq_ok hrun
  exact .current hrest (follows_pure _)

end

theorem cursor_start {ts : List Token} (h : completed ts = S.tokens) :
    Cursor.start S.limit ts = S.cursor S.body S.limit := by
  simp only [Cursor.start, cursor, h, Nat.sub_self]

theorem parse_eq {ts : List Token} (hts : Sealed ts) (h : completed ts = S.tokens) {d : Cursor}
    {r : Except Report Program} (hans : S.Answers S.body n ((document S.limit >>= fun statements =>
      pure ⟨statements, ⟨1, 1, 0, S.mark.span.stop⟩⟩).run S.body) r d) :
    r = (Program.parse S.limit ts).mapError SyntaxError.report := by
  rw [Program.parse_eq_parseBody S.limit hts h, Program.parseBody]
  rw [run_bind] at hans
  cases hrun : (document S.limit).run S.body with
  | ok x =>
    rw [hrun] at hans
    cases hans
    rfl
  | error f =>
    rw [hrun] at hans
    cases hans
    rfl

end Scene

/-- **Reading with a cursor is safe.** From every token list with nothing behind an end mark, and with
every limit, there is a run, and no other: no operation is undefined, and no loop goes on for ever. It
comes to what `Program.parse` gives. All its cursors have the tokens of the start, of which the last one is
the only end mark, and are in front of one of them, at a level within the limit. All its calls come back
at the level they started from and not in front of their start, and behind it when a production that
takes a token succeeds. -/
theorem Cursor.exists_run {ts : List Token} (hts : Sealed ts) (limit : Nat) :
    ∃ es d, Runs (production .program) (.start limit ts) es
        ((Program.parse limit ts).mapError SyntaxError.report) d ∧
      (∀ es' r' d', Runs (production .program) (.start limit ts) es' r' d' →
        es' = es ∧ r' = (Program.parse limit ts).mapError SyntaxError.report ∧ d' = d) ∧
      (∃ us e, completed ts = us ++ [e] ∧ NoEnd us ∧ e.kind = .eof) ∧
      (∀ c, c = .start limit ts ∨ .reached c ∈ es →
        c.tokens = completed ts ∧ c.position < (completed ts).length ∧ c.depth ≤ limit) ∧
      ∀ β (p : Production β) before success after, .returned p before success after ∈ es →
        after.depth = before.depth ∧ before.position ≤ after.position ∧
          (success = true → p.consumes = true → before.position < after.position) := by
  obtain ⟨us, e, hc, hus, he⟩ := hts.completed_eq
  let S : Scene := ⟨us, e, limit, hus, he⟩
  have hexpr : S.Tracks (production .expression) limit (expression limit) :=
    (Scene.tracks_expression (Nat.le_refl limit)).1
  obtain ⟨es, r, d, hrun, hes, hans⟩ := Scene.follows_program hexpr
  have hstart : Cursor.start limit ts = S.cursor us limit := Scene.cursor_start (S := S) hc
  obtain rfl := Scene.parse_eq (S := S) hts hc hans
  rw [← hstart] at hrun
  refine ⟨es, d, hrun, fun es' r' d' h => hrun.unique h, ⟨us, e, hc, hus, he⟩, fun c hreach => ?_,
    fun β p before success after hback => hes _ hback⟩
  rw [hc]
  rcases hreach with rfl | hreach
  · rw [hstart]
    exact Scene.sound_reached
  · exact hes _ hreach

/-- A negation behind `when` where the limit is one level. -/
theorem Cursor.exists_run_deep :
    let ts : List Token := [⟨.kwRule, "rule", {}⟩, ⟨.ident, "r", {}⟩, ⟨.colon, ":", {}⟩,
      ⟨.category .custom, "custom", {}⟩, ⟨.lbrace, "\x7b", {}⟩, ⟨.kwWhen, "when", {}⟩,
      ⟨.kwNot, "not", {}⟩, ⟨.ident, "a", {}⟩]
    Sealed ts ∧ ∃ es d, Runs (production .program) (.start 1 ts) es
        (.error ⟨"expression is nested too deeply", .ident, "a", 1, 1⟩) d ∧
      ∀ c, .reached c ∈ es → c.position < 9 ∧ c.depth ≤ 1 := by
  intro ts
  have hts : Sealed ts := NoEnd.sealed (by simp [ts])
  have hparse : (Program.parse 1 ts).mapError SyntaxError.report =
      .error ⟨"expression is nested too deeply", .ident, "a", 1, 1⟩ := by
    decide +kernel
  obtain ⟨es, d, hrun, -, -, hreach, -⟩ := Cursor.exists_run hts 1
  rw [hparse] at hrun
  exact ⟨hts, es, d, hrun, fun c hc => (hreach c (.inr hc)).2⟩

end PolicyLang

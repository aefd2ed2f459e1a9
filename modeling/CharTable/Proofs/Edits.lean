import CharTable.Proofs.Faults

/-!
Edits carried out in place. A builder looks up, checks and changes its one table as it goes, and
takes nothing back at a fault. Still a failing edit leaves no trace: whether it fails, and how, is
settled by the declarations and the edit before the first change, so a sequence of edits does what
its sound ones do.
-/
namespace CharTable

namespace Table

/-- Steps on a table that changes as they go. A fault ends them and takes nothing back. -/
abbrev Build := ExceptT Fault (StateM Table)

namespace Build

def on {α : Type} (steps : Build α) (t : Table) : Except Fault α × Table := steps.run.run t

def insert (m : Model) (b : UInt8) (id : TagId) : Build Unit :=
  match _tag : m.tag? id with
  | some (.atomic a) => modify fun t => t.setEntry b ((t.entry b).insert a)
  | some (.composite parts) => parts.attach.forM fun p => insert m b p.1
  | none => pure ()
termination_by (⟨id⟩ : m.Node)
decreasing_by exact Model.isPart_of_tag? _tag p.2

def tag (m : Model) (tag : String) (byte : ByteSpec) : Build Unit := do
  let id ← m.tagId tag
  let b ← byte.resolve
  insert m b id

def range (m : Model) (tag : String) (low high : ByteSpec) : Build Unit := do
  let id ← m.tagId tag
  let lo ← low.resolve
  let hi ← high.resolve
  if hi < lo then throw (.invalidRange lo hi)
  else (byteInterval lo hi).forM fun b => insert m b id

def points (m : Model) (tag : String) (bytes : List ByteSpec) : Build Unit := do
  let id ← m.tagId tag
  let resolved ← (bytes.mapM ByteSpec.resolve : Except Fault (List UInt8))
  resolved.forM fun b => insert m b id

def perform (m : Model) : Edit → Build Unit
  | .tag name byte => tag m name byte
  | .range name low high => range m name low high
  | .points name bytes => points m name bytes
  | .rule (.points name bytes) => points m name bytes
  | .rule (.range name low high) => range m name low high

theorem on_bind {α β : Type} (steps : Build α) (next : α → Build β) (t : Table) :
    (steps >>= next).on t = match steps.on t with
      | (.ok a, u) => (next a).on u
      | (.error fault, u) => (.error fault, u) := by
  unfold on
  rw [ExceptT.run_bind, StateT.run_bind]
  cases (ExceptT.run steps).run t with
  | mk outcome u => cases outcome <;> rfl

theorem on_forM {α : Type} {step : α → Build Unit} {change : Table → α → Table} {items : List α}
    (each : ∀ item ∈ items, ∀ t, (step item).on t = (.ok (), change t item)) (t : Table) :
    (items.forM step).on t = (.ok (), items.foldl change t) := by
  induction items generalizing t with
  | nil => rfl
  | cons item items ih =>
    obtain ⟨here, later⟩ := List.forall_mem_cons.mp each
    change (step item >>= fun _ => items.forM step).on t = _
    rw [on_bind, here t]
    exact ih later (change t item)

theorem on_insert (m : Model) (b : UInt8) (id : TagId) (t : Table) :
    (insert m b id).on t = (.ok (), insertTag m b id t) := by
  -- Along the descent to parts, which ends because the model has no cycle.
  induction id using m.descends.induction generalizing t with
  | _ id ih =>
    rw [insert]
    split
    · rename_i a found
      rw [insertTag_eq, found]
      rfl
    · rename_i parts found
      rw [insertTag_eq, found]
      have each : ∀ p ∈ parts.attach, ∀ u, (insert m b p.1).on u = (.ok (), insertTag m b p.1 u) :=
        fun p _ u => ih p.1 (Model.isPart_of_tag? found p.2) u
      have ran := on_forM each t
      simpa using ran
    · rename_i found
      rw [insertTag_eq, found]
      rfl

theorem on_lift_ok {α β : Type} (a : α) (next : α → Build β) (t : Table) :
    ((liftM (Except.ok a : Except Fault α) : Build α) >>= next).on t = (next a).on t := rfl

theorem on_insertOn (m : Model) (id : TagId) (bytes : List UInt8) (t : Table) :
    (bytes.forM fun b => insert m b id).on t = (.ok (), insertOn m id bytes t) :=
  on_forM (fun b _ u => on_insert m b id u) t

def onTarget (m : Model) (t : Table) : Except Fault (TagId × List UInt8) → Except Fault Unit × Table
  | .ok target => (.ok (), insertOn m target.1 target.2 t)
  | .error fault => (.error fault, t)

theorem on_tag (m : Model) (name : String) (byte : ByteSpec) (t : Table) :
    (tag m name byte).on t = onTarget m t ((Rule.points name [byte]).target m) := by
  rw [tag, Rule.target]
  cases m.tagId name with
  | error fault => rfl
  | ok id =>
    rw [on_lift_ok, List.mapM_cons]
    cases byte.resolve with
    | error fault => rfl
    | ok b => exact on_insert m b id t

theorem on_points (m : Model) (name : String) (bytes : List ByteSpec) (t : Table) :
    (points m name bytes).on t = onTarget m t ((Rule.points name bytes).target m) := by
  rw [points, Rule.target]
  cases m.tagId name with
  | error fault => rfl
  | ok id =>
    rw [on_lift_ok]
    cases bytes.mapM ByteSpec.resolve with
    | error fault => rfl
    | ok resolved => exact on_insertOn m id resolved t

theorem on_range (m : Model) (name : String) (low high : ByteSpec) (t : Table) :
    (range m name low high).on t = onTarget m t ((Rule.range name low high).target m) := by
  rw [range, Rule.target]
  cases m.tagId name with
  | error fault => rfl
  | ok id =>
    rw [on_lift_ok]
    cases low.resolve with
    | error fault => rfl
    | ok lo =>
      rw [on_lift_ok]
      cases high.resolve with
      | error fault => rfl
      | ok hi =>
        rw [on_lift_ok]
        change _ = onTarget m t (if hi < lo then _ else _)
        by_cases inverted : hi < lo
        · rw [if_pos inverted, if_pos inverted]
          rfl
        · rw [if_neg inverted, if_neg inverted]
          exact on_insertOn m id (byteInterval lo hi) t

end Build

namespace Edit

def toRule : Edit → Rule
  | .tag name byte => .points name [byte]
  | .range name low high => .range name low high
  | .points name bytes => .points name bytes
  | .rule asked => asked

def fault? (ds : List Declaration) (e : Edit) : Option Fault := e.toRule.fault? ds

/-- What the edit comes to under the declarations, on every table. -/
def answer (ds : List Declaration) (e : Edit) : Except Fault Unit :=
  match e.fault? ds with
  | none => .ok ()
  | some fault => .error fault

end Edit

theorem Build.on_perform (m : Model) (e : Edit) (t : Table) :
    (perform m e).on t = onTarget m t (e.toRule.target m) := by
  cases e with
  | tag name byte => exact on_tag m name byte t
  | range name low high => exact on_range m name low high t
  | points name bytes => exact on_points m name bytes t
  | rule rule =>
    cases rule with
    | points name bytes => exact on_points m name bytes t
    | range name low high => exact on_range m name low high t

/-- An edit is its checks, followed by the insertions that cannot fail. -/
theorem tryEdit_eq (m : Model) (t : Table) (e : Edit) :
    tryEdit m t e = (e.toRule.target m).map fun target => insertOn m target.1 target.2 t := by
  cases e with
  | tag name byte =>
    rw [← apply_eq_map]
    simp only [tryEdit, Edit.toRule, apply, applyTag, applyPoints, List.mapM_cons, List.mapM_nil]
    cases m.tagId name with
    | error fault => rfl
    | ok id => cases byte.resolve <;> rfl
  | range name low high => exact apply_eq_map m t (.range name low high)
  | points name bytes => exact apply_eq_map m t (.points name bytes)
  | rule rule => exact apply_eq_map m t rule

theorem edit_eq (m : Model) (t : Table) (e : Edit) :
    edit m t e = (Fault.raised (e.toRule.target m),
        (Build.onTarget m t (e.toRule.target m)).2) := by
  rw [edit, tryEdit_eq]
  cases e.toRule.target m <;> rfl

/-- Edits leave what the rules of those that do not fail build, from the same table on. -/
theorem exists_rules_run (m : Model) (t : Table) (edits : List Edit) :
    ∃ rules, ∀ index, applyFrom m index t rules = .ok (run m t edits) := by
  induction edits generalizing t with
  | nil => exact ⟨[], fun _ => rfl⟩
  | cons e edits ih =>
    change ∃ rules, ∀ index, applyFrom m index t rules = .ok (run m (edit m t e).2 edits)
    rw [edit_eq]
    cases taken : e.toRule.target m with
    | error fault => exact ih t
    | ok target =>
      obtain ⟨rules, builds⟩ := ih (insertOn m target.1 target.2 t)
      refine ⟨e.toRule :: rules, fun index => ?_⟩
      rw [applyFrom, apply_eq_map, taken]
      exact builds (index + 1)

variable {m : Model} {ds : List Declaration}

theorem edit_fault (copies : m.Copies ds) (t : Table) (e : Edit) :
    (edit m t e).1 = e.fault? ds := by
  rw [edit_eq]
  exact Rule.raised_target copies e.toRule

/-- An edit that fails leaves the table as it was. -/
theorem edit_unchanged (copies : m.Copies ds) (t : Table) {e : Edit} (fails : e.fault? ds ≠ none) :
    (edit m t e).2 = t := by
  rw [Edit.fault?, ← Rule.raised_target copies] at fails
  rw [edit_eq]
  cases taken : e.toRule.target m with
  | error fault => rfl
  | ok target =>
    rw [taken] at fails
    exact absurd rfl fails

/-- Carried out in place, an edit comes to what is foretold and leaves what the edit leaves. -/
theorem Build.perform_eq (copies : m.Copies ds) (t : Table) (e : Edit) :
    (perform m e).on t = (e.answer ds, (edit m t e).2) := by
  rw [on_perform, Edit.answer, Edit.fault?, ← Rule.raised_target copies, edit_eq]
  cases e.toRule.target m <;> rfl

def session (m : Model) (t : Table) : List Edit → List (Except Fault Unit) × Table
  | [] => ([], t)
  | e :: rest =>
    let (outcome, t) := (Build.perform m e).on t
    let (outcomes, t) := session m t rest
    (outcome :: outcomes, t)

/-- Each edit of a session is answered by its own fault, whatever the edits before it did. -/
theorem session_eq (copies : m.Copies ds) (t : Table) (edits : List Edit) :
    session m t edits = (edits.map (Edit.answer ds), run m t edits) := by
  induction edits generalizing t with
  | nil => rfl
  | cons e edits ih =>
    rw [session, Build.perform_eq copies]
    simp only [ih]
    rfl

/-- A session leaves the table that its sound edits alone would leave. -/
theorem run_filter (copies : m.Copies ds) (t : Table) (edits : List Edit) :
    run m t edits = run m t (edits.filter fun e => e.fault? ds = none) := by
  induction edits generalizing t with
  | nil => rfl
  | cons e edits ih =>
    change run m (edit m t e).2 edits = _
    by_cases sound : e.fault? ds = none
    · rw [List.filter_cons_of_pos (by simpa using sound), ih]
      rfl
    · rw [List.filter_cons_of_neg (by simpa using sound), edit_unchanged copies t sound, ih]

/-- Whether an edit fails, and with which fault, is read off the declarations and the edit; a
failing edit, though it works in place, leaves the table as it was, and so do the failing ones of
any sequence. -/
theorem failing_edits_void (accepted : Model.ofDeclarations ds = .ok m) (edits : List Edit) :
    (∀ t e, (edit m t e).1 = e.fault? ds ∧
      (Build.perform m e).on t = (e.answer ds, (edit m t e).2)) ∧
      (∀ t e, e.fault? ds ≠ none → (edit m t e).2 = t) ∧
      session m (empty m) edits = (edits.map (Edit.answer ds), run m (empty m) edits) ∧
      run m (empty m) edits = run m (empty m) (edits.filter fun e => e.fault? ds = none) := by
  have copies := copies_of_ofDeclarations accepted
  exact ⟨fun t e => ⟨edit_fault copies t e, Build.perform_eq copies t e⟩,
    fun t _ => edit_unchanged copies t, session_eq copies (empty m) edits,
    run_filter copies (empty m) edits⟩

def mixedEdits : List Edit :=
  [.tag "WORD" (.code 95), .points "DIGIT" [.char '0', .code 300, .code 301],
    .range "LETTER" (.char 'z') (.char 'a'), .rule (.points "NOTHING" [.code 400]),
    .range "LETTER" (.char 'a') (.char 'z')]

theorem run_mixedEdits :
    ∃ m, Model.ofDeclarations wordTags = .ok m ∧
      session m (empty m) mixedEdits =
        ([.ok (), .error (.outOfRange 300), .error (.invalidRange 122 97),
          .error (.unknownTag "NOTHING"), .ok ()], run m (empty m) mixedEdits) ∧
      run m (empty m) mixedEdits =
        run m (empty m) [.tag "WORD" (.code 95), .range "LETTER" (.char 'a') (.char 'z')] := by
  obtain ⟨m, _, accepted, _⟩ := exists_word
  obtain ⟨_, _, answers, same⟩ := failing_edits_void accepted mixedEdits
  exact ⟨m, accepted, answers, same⟩

end Table
end CharTable

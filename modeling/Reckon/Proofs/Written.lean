import Reckon.Proofs.Operation
import Reckon.Proofs.Session
import Reckon.Proofs.Store

/-! # What a session has written

Whatever is done with a session, the statements that do not fail make up one run. Its store is what is
left of the constants, the bindings and the results of that run when each replaces what was written
to its name before.
-/

namespace Reckon

variable {options : Options} {bindings results results' : List (String × Float)}

namespace Session

variable {s mid next : Session} {us vs sts : List Statement}

theorem Runs.append (h : s.Runs us results mid) (h' : mid.Runs vs results' next) :
    s.Runs (us ++ vs) (results ++ results') next := by
  induction h with
  | nil => exact h'
  | cons hr _ ih => exact .cons hr (ih h')

theorem runs_singleton {st : Statement} {value : Float} (h : s.run st = .ok (value, next)) :
    s.Runs [st] [(st.target, value)] next :=
  .cons h .nil

theorem Runs.store_eq (h : s.Runs sts results next) : next.store = s.store.setAll results := by
  induction h with
  | nil => rfl
  | cons hr _ ih =>
    obtain ⟨-, rfl⟩ := run_eq_ok_iff.mp hr
    exact ih

theorem exists_runs_runScript (s : Session) (text : String) :
    ∃ sts, s.Runs sts (s.runScript text).results (s.runScript text).session := by
  unfold runScript
  cases Statement.parseLines s.options (Text.lines text) with
  | error e => exact ⟨[], .nil⟩
  | ok sts =>
    obtain ⟨us, -, h⟩ := exists_runs_runNumbered s sts
    exact ⟨us.map Prod.snd, h⟩

end Session

namespace Store

variable {s : Store}

/-- The names that a session with these bindings and results has written to. -/
def written (bindings results : List (String × Float)) : List String :=
  (constants ++ bindings ++ results).map Prod.fst

/-- The store holds what the constants, the bindings and the results have left in it. -/
structure Records (s : Store) (bindings results : List (String × Float)) : Prop where
  /-- No other name is bound, and none twice. -/
  names_perm : s.names.Perm (written bindings results).dedup
  /-- A result comes before a binding and a binding before a constant, and the last one counts. -/
  get?_eq : ∀ name, s.get? name =
    ((last? name results).or (last? name bindings)).or (constants.lookup name)
  get_eq_error_iff : ∀ name e, s.get name = .error e ↔
    e = .unknownVariable name ∧ name ∉ written bindings results
  contains_iff : ∀ name, s.contains name = true ↔ ∃ value, s.get name = .ok value
  mem_entries_iff : ∀ name value, (name, value) ∈ s.entries ↔ s.get name = .ok value
  length_entries : s.entries.length = s.size
  size_eq : s.size = (written bindings results).dedup.length

theorem records_of_get? (h : ∀ name, s.get? name = last? name (constants ++ bindings ++ results)) :
    s.Records bindings results := by
  have hnone (name : String) : s.get? name = none ↔ name ∉ written bindings results := by
    rw [h, last?_eq_none_iff, written]
  have hperm : s.names.Perm (written bindings results).dedup := by
    rw [List.perm_ext_iff_of_nodup s.nodup_names (List.nodup_dedup _)]
    intro name
    rw [mem_names_iff, List.mem_dedup, ne_eq, hnone, not_not]
  constructor
  case names_perm => exact hperm
  case get?_eq =>
    intro name
    rw [h, last?_append, last?_append, last?_constants, Option.or_assoc]
  case get_eq_error_iff =>
    intro name e
    rw [get_eq_error_iff, hnone]
  case contains_iff => exact fun _ => contains_iff
  case mem_entries_iff =>
    intro name value
    rw [mem_entries_iff, get_eq_ok_iff]
  case length_entries => rfl
  case size_eq =>
    rw [← hperm.length_eq, names, List.length_map, size]

theorem records_setAll (bindings results : List (String × Float)) :
    ((ofBindings bindings).setAll results).Records bindings results := by
  apply records_of_get?
  intro name
  rw [get?_setAll, get?_ofBindings, last?_append, last?_append, last?_constants]

end Store

namespace Desk

variable {d : Desk}

/-- The targets and values of the statements that an operation runs without a failure. -/
def writes (d : Desk) : Operation → List (String × Float)
  | .line text =>
    match d.session.runLine text with
    | .error _ => []
    | .ok (result, _) => [result]
  | .script text => (d.session.runScript text).results
  | .keep _ _ => []
  | .rerun index =>
    match d.kept[index]? with
    | none => []
    | some st =>
      match d.session.run st with
      | .error _ => []
      | .ok (value, _) => [(st.target, value)]

def writesAll (d : Desk) : List Operation → List (String × Float)
  | [] => []
  | op :: ops => d.writes op ++ (d.perform op).writesAll ops

theorem exists_runs_perform (d : Desk) (op : Operation) :
    ∃ sts, d.session.Runs sts (d.writes op) (d.perform op).session := by
  cases op with
  | line text =>
    rw [writes, perform]
    cases h : d.session.runLine text with
    | error e => exact ⟨[], .nil⟩
    | ok r =>
      obtain ⟨result, next⟩ := r
      obtain ⟨st, value, -, hr, rfl⟩ := Session.runLine_eq_ok_iff.mp h
      exact ⟨[st], Session.runs_singleton hr⟩
  | script text => exact Session.exists_runs_runScript d.session text
  | keep options text =>
    rw [writes, perform]
    split <;> exact ⟨[], .nil⟩
  | rerun index =>
    rw [writes, perform]
    cases d.kept[index]? with
    | none => exact ⟨[], .nil⟩
    | some st =>
      cases h : d.session.run st with
      | error e =>
        simp only [h]
        exact ⟨[], .nil⟩
      | ok r =>
        simp only [h]
        exact ⟨[st], Session.runs_singleton h⟩

theorem exists_runs_performAll (d : Desk) (ops : List Operation) :
    ∃ sts, d.session.Runs sts (d.writesAll ops) (d.performAll ops).session := by
  induction ops generalizing d with
  | nil => exact ⟨[], .nil⟩
  | cons op ops ih =>
    obtain ⟨us, hu⟩ := exists_runs_perform d op
    obtain ⟨vs, hv⟩ := ih (d.perform op)
    exact ⟨us ++ vs, hu.append hv⟩

/-- What has been done with a session comes down to one run of statements, and the store to what the
constants, the bindings and the statements of this run have written. -/
theorem records_performAll (options : Options) (bindings : List (String × Float))
    (ops : List Operation) :
    (∃ sts, (Session.start options bindings).Runs sts ((start options bindings).writesAll ops)
      ((start options bindings).performAll ops).session) ∧
    ((start options bindings).performAll ops).session.store.Records bindings
      ((start options bindings).writesAll ops) := by
  obtain ⟨sts, h⟩ := exists_runs_performAll (start options bindings) ops
  refine ⟨⟨sts, h⟩, ?_⟩
  rw [h.store_eq]
  exact Store.records_setAll bindings _

/-- The third line of the script fails, and the binding of `x` is overwritten. -/
example : (start {} [("x", 1), ("x", 2)]).writesAll
    [.line "y = x", .keep {} "x = x * y", .rerun 0, .line "z = q", .script "a = x\n\nb = q\nc = 1"] =
      [("y", 2), ("x", 4), ("a", 4)] := by
  decide +kernel

end Desk

end Reckon

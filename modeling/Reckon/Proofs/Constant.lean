import Reckon.Proofs.Listing
import Reckon.Proofs.Operation
import Reckon.Proofs.Session
import Reckon.Proofs.Statement
import Reckon.Proofs.Store

/-! # Constants are protected

No write to a store is refused. A parsed statement all the same spares the constants: its target is
none of them, or the statement looks its target up and writes back what it has read. So whatever is
done with a session, each constant keeps the value that it starts with.
-/

namespace Reckon

variable {options : Options} {bindings : List (String × Float)} {name : String} {value : Float}

namespace Store

theorem isSome_get?_ofBindings (h : isConstant name = true) (bindings : List (String × Float)) :
    ((ofBindings bindings).get? name).isSome = true := by
  have hall : ∀ constant ∈ ["pi", "PI", "e", "E"], (constants.lookup constant).isSome = true := by
    decide +kernel
  rw [get?_ofBindings, Option.isSome_or, hall name ((isConstant_iff name).mp h), Bool.or_true]

end Store

def Statement.SparesConstants (st : Statement) : Prop :=
  isConstant st.target = true → st.expr = .var st.target

theorem Statement.sparesConstants_of_parse {line : String} {st : Statement}
    (h : parse options line = .ok st) : st.SparesConstants := by
  intro hc
  cases hcut : Text.cutEquals line with
  | none =>
    obtain ⟨-, rfl⟩ := (parse_eq_ok_iff_of_cutEquals_eq_none hcut).mp h
    rfl
  | some sides =>
    obtain ⟨hl, -, ht, -⟩ := (parse_eq_ok_iff_of_cutEquals hcut).mp h
    rw [ht, hl] at hc
    cases hc

theorem Statement.sparesConstants_of_parseLines {lines : List String}
    {sts : List (ℕ × Statement)} (h : parseLines options lines = .ok sts) :
    ∀ p ∈ sts, p.2.SparesConstants := by
  rintro ⟨n, st⟩ hp
  obtain ⟨line, -, hst⟩ := ((parseLines_eq_ok_iff.mp h).mem_iff n st).mp hp
  exact sparesConstants_of_parse hst

namespace Session

variable {s next : Session} {st : Statement} {sts : List Statement}
  {results : List (String × Float)}

theorem get?_of_run (hst : st.SparesConstants) (h : s.run st = .ok (value, next))
    (hc : isConstant name = true) : next.store.get? name = s.store.get? name := by
  obtain ⟨he, rfl⟩ := run_eq_ok_iff.mp h
  rw [Store.get?_set]
  split
  · next hn =>
    subst hn
    rw [hst hc, Expr.eval, Store.get_eq_ok_iff] at he
    exact he.symm
  · rfl

theorem Runs.get?_eq (h : s.Runs sts results next) (hsts : ∀ st ∈ sts, st.SparesConstants)
    (hc : isConstant name = true) : next.store.get? name = s.store.get? name := by
  induction h with
  | nil => rfl
  | cons hr _ ih =>
    obtain ⟨hst, hsts'⟩ := List.forall_mem_cons.mp hsts
    exact (ih hsts').trans (get?_of_run hst hr hc)

theorem get?_runNumbered (s : Session) {us vs : List (ℕ × Statement)}
    (hvs : ∀ p ∈ vs, p.2.SparesConstants) (hu : us <+: vs) (hc : isConstant name = true) :
    (s.runNumbered us).session.store.get? name = s.store.get? name := by
  obtain ⟨ws, hw, hr⟩ := exists_runs_runNumbered s us
  refine hr.get?_eq (fun st hst => ?_) hc
  obtain ⟨p, hp, rfl⟩ := List.mem_map.mp hst
  exact hvs p ((hw.trans hu).subset hp)

theorem get?_runScript (s : Session) (text : String) (hc : isConstant name = true) :
    (s.runScript text).session.store.get? name = s.store.get? name := by
  rw [runScript]
  cases h : Statement.parseLines s.options (Text.lines text) with
  | error e => rfl
  | ok sts =>
    exact get?_runNumbered s (Statement.sparesConstants_of_parseLines h) (List.prefix_refl sts) hc

end Session

namespace Desk

variable {d : Desk} {op : Operation} {session : Session} {t : Store}

structure Keeps (t : Store) (d : Desk) : Prop where
  get?_eq : ∀ name, isConstant name = true → d.session.store.get? name = t.get? name
  spares : ∀ st ∈ d.kept, st.SparesConstants

theorem Keeps.perform (h : d.Keeps t) (op : Operation) : (d.perform op).Keeps t := by
  cases op with
  | line text =>
    rw [Desk.perform]
    split
    · exact h
    · next next hl =>
      obtain ⟨st, value, hp, hr, -⟩ := Session.runLine_eq_ok_iff.mp hl
      refine ⟨fun name hc => ?_, h.spares⟩
      exact (Session.get?_of_run (Statement.sparesConstants_of_parse hp) hr hc).trans
        (h.get?_eq name hc)
  | script text =>
    exact ⟨fun name hc => (d.session.get?_runScript text hc).trans (h.get?_eq name hc), h.spares⟩
  | keep options text =>
    rw [Desk.perform]
    split
    · exact h
    · next st hp =>
      exact ⟨h.get?_eq, List.forall_mem_cons.mpr ⟨Statement.sparesConstants_of_parse hp, h.spares⟩⟩
  | rerun index =>
    rw [Desk.perform]
    split
    · exact h
    · next st hst =>
      split
      · exact h
      · next next hr =>
        refine ⟨fun name hc => ?_, h.spares⟩
        exact (Session.get?_of_run (h.spares st (List.mem_of_getElem? hst)) hr hc).trans
          (h.get?_eq name hc)

theorem Keeps.performAll (h : d.Keeps t) (ops : List Operation) : (d.performAll ops).Keeps t := by
  induction ops generalizing d with
  | nil => exact h
  | cons op ops ih => exact ih (h.perform op)

theorem Keeps.get?_of_meets (h : d.Keeps t) (hm : d.Meets op session)
    (hc : isConstant name = true) : session.store.get? name = t.get? name := by
  cases hm with
  | before => exact h.get?_eq name hc
  | after => exact (h.perform op).get?_eq name hc
  | within hp hu =>
    exact (Session.get?_runNumbered _ (Statement.sparesConstants_of_parseLines hp) hu hc).trans
      (h.get?_eq name hc)

/-- Each constant is bound, and has at every moment the value that it starts with, whatever is done
with the session and whether it fails or not. -/
theorem get?_of_isConstant (options : Options) (bindings : List (String × Float))
    (ops : List Operation) (hm : ((start options bindings).performAll ops).Meets op session)
    (hc : isConstant name = true) : ∃ value,
      (Store.ofBindings bindings).get? name = some value ∧
        session.store.get? name = some value := by
  obtain ⟨value, hv⟩ := Option.isSome_iff_exists.mp (Store.isSome_get?_ofBindings hc bindings)
  have hstart : (start options bindings).Keeps (Store.ofBindings bindings) :=
    ⟨fun _ _ => rfl, by simp [start]⟩
  exact ⟨value, hv, ((hstart.performAll ops).get?_of_meets hm hc).trans hv⟩

/-- A constant that a binding replaces keeps the value of the binding, also when it is looked up. -/
theorem get?_of_isConstant_replaced :
    isConstant "pi" = true ∧
    (((start {} [("pi", 3)]).performAll [.keep {} " pi ", .line "pi = 2", .rerun 0]).perform
      (.script "x = pi + 1\npi\ny = z")).session.store.get? "pi" = some 3 := by
  have hc : isConstant "pi" = true := by decide +kernel
  have hb : (Store.ofBindings [("pi", 3)]).get? "pi" = some 3 := by decide +kernel
  obtain ⟨value, hv, hs⟩ := get?_of_isConstant {} [("pi", 3)]
    [.keep {} " pi ", .line "pi = 2", .rerun 0] (.after (.script "x = pi + 1\npi\ny = z")) hc
  obtain rfl := Option.some.inj (hv.symm.trans hb)
  exact ⟨hc, hs⟩

end Desk

end Reckon

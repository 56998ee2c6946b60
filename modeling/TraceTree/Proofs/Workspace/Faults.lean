import TraceTree.Proofs.Workspace.Runs

set_option autoImplicit false

/-! # Faults are not stored

A fault is a value like any other, yet a `let` ends with it before it binds a name, a `return` before
it makes a wrapper, and a call before its parameters are bound. So over any sequence of runs, those
that end with a fault or are given up among them, no scope binds a fault and no wrapper holds one
(`Workspace.stores_no_fault`). -/

namespace TraceTree

/-- Whether a wrapper in this value holds a fault. -/
def Value.wrapsFault : Value → Bool
  | returned _ inner => inner.isError || inner.wrapsFault
  | _ => false

namespace Value

@[simp] theorem wrapsFault_returned (id : ValueId) (v : Value) :
    (returned id v).wrapsFault = (v.isError || v.wrapsFault) := rfl

theorem wrapsFault_unwrapped {v : Value} (h : v.wrapsFault = false) :
    v.unwrapped.wrapsFault = false := by
  cases v with
  | returned id inner =>
    rw [wrapsFault_returned, Bool.or_eq_false_iff] at h
    exact h.2
  | _ => exact h

/-- Evaluations keep faults out of wrappers, and out of scopes too. -/
theorem kept_faultless :
    Kept (·.wrapsFault = false) (fun v => v.isError = false ∧ v.wrapsFault = false) where
  constant := fun _ constant => by cases constant <;> rfl
  integer := fun _ _ => rfl
  fault := fun _ _ => rfl
  function := fun _ _ => rfl
  wrapper := fun _ v hv hproper => by simp [hv, hproper]
  unwrapped := fun _ => wrapsFault_unwrapped
  binding := fun _ hv hproper => ⟨hproper, hv⟩
  bound := fun _ hv => hv.2

end Value

namespace Workspace

/-- **No fault is ever stored.** At every moment of any sequence of runs, whether they end with a
value, end with a fault or are given up, no scope binds a fault, and no wrapper holds one: neither
among the bound values, nor among those the open nodes have, nor in the trace. The same is true of
what the runs leave and of the values that they report. -/
theorem stores_no_fault (inputs : List Input) :
    (∀ c, empty.Visits inputs c →
        (∀ s name v, c.machine.heap.Binds s name v → v.isError = false) ∧
          ∀ v, c.Holds v → v.wrapsFault = false) ∧
      (∀ s name v, (empty.after inputs).heap.Binds s name v →
        v.isError = false ∧ v.wrapsFault = false) ∧
      ∀ value, empty.Reports inputs value → value.wrapsFault = false := by
  obtain ⟨hvisits, hafter, hreports⟩ := upholds_inputs Value.kept_faultless
    (fun s name v hv => absurd hv (not_binds_empty s name v)) inputs
  refine ⟨fun c hc => ?_, hafter, hreports⟩
  have hupholds := hvisits c hc
  exact ⟨fun s name v hv => (hupholds.bound s name v hv).1, hupholds.held⟩

/-- A `return` that is handed a fault: the program ends with the fault itself, in no wrapper, and what
was bound before it stays. -/
theorem stores_no_fault_faultyReturn :
    let inputs : List Input := [⟨"let x = 1; return -true;", .program, 5⟩]
    let fault : Value := .error (.made 1) (.unknownPrefix .neg .boolean)
    empty.Reports inputs fault ∧ fault.wrapsFault = false ∧
      ∀ v, (empty.after inputs).heap.Binds empty.globals "x" v → v.isError = false := by
  intro inputs fault
  obtain ⟨_, hafter, hreports⟩ := stores_no_fault inputs
  have hreported : empty.Reports inputs fault := .of_outcome (by cbv)
  exact ⟨hreported, hreports fault hreported, fun v hv => (hafter _ _ v hv).1⟩

end Workspace

end TraceTree

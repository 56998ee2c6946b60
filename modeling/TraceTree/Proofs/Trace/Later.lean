import TraceTree.Proofs.Value.Later
import TraceTree.Trace.Listing

set_option autoImplicit false

/-! # Traces of what is evaluated later

Events name their scopes and values by numbers that get greater when all of it happens later. A trace
numbers the scopes anew in the order in which they occur in it, so nothing of this shows in its listing
(`Trace.listing_later`). -/

namespace TraceTree

/-- The same event, later. -/
def Event.later (p : Past) : Event → Event
  | entry step node scope => entry step (node.later p.nodes) (p.scope scope)
  | exit step node scope value =>
    exit step (node.later p.nodes) (p.scope scope) (value.map (Value.later p))

/-- The same trace, recorded later. -/
def Trace.later (p : Past) (t : Trace) : Trace where
  events := t.events.map (Event.later p)
  scopes := t.scopes.map p.scope
  firstSeen := t.firstSeen

/-! ## Events -/

namespace Event

variable (p : Past) (e : Event)

@[simp] theorem step_later : (e.later p).step = e.step := by cases e <;> rfl

@[simp] theorem node_later : (e.later p).node = e.node.later p.nodes := by cases e <;> rfl

@[simp] theorem scope_later : (e.later p).scope = p.scope e.scope := by cases e <;> rfl

@[simp] theorem isEntry_later : (e.later p).isEntry = e.isEntry := by cases e <;> rfl

@[simp] theorem value?_later : (e.later p).value? = e.value?.map (Value.later p) := by
  cases e <;> rfl

@[simp] theorem produces_later (v : Value) : (e.later p).produces (v.later p) = e.produces v := by
  cases e with
  | entry step node scope => rfl
  | exit step node scope value =>
    cases value with
    | none => rfl
    | some w => exact w.is_later p v

end Event

/-! ## Recording -/

namespace Trace

variable (p : Past) (t : Trace) (node : Node) (scope : ScopeId)

@[simp] theorem steps_later : (t.later p).steps = t.steps := by simp [later, steps]

theorem observe_later : (t.observe scope).later p = (t.later p).observe (p.scope scope) := by
  have hcontains : (t.later p).scopes.contains (p.scope scope) = t.scopes.contains scope := by
    rw [Bool.eq_iff_iff, Array.contains_iff_mem, Array.contains_iff_mem]
    simp [later, Past.scope_inj]
  unfold observe
  rw [hcontains]
  by_cases hseen : t.scopes.contains scope = true
  · rw [if_pos hseen, if_pos hseen]
  · rw [if_neg hseen, if_neg hseen]
    simp [later, steps]

theorem enter_later :
    (t.enter node scope).later p = (t.later p).enter (node.later p.nodes) (p.scope scope) := by
  rw [enter, enter, ← observe_later]
  simp [later, steps, Event.later]

theorem exit_later (value : Option Value) :
    (t.exit node scope value).later p =
      (t.later p).exit (node.later p.nodes) (p.scope scope) (value.map (Value.later p)) := by
  rw [exit, exit, ← observe_later]
  simp [later, steps, Event.later]

/-! ## Listing -/

/-- A scope has the number later that it had before. -/
@[simp] theorem scopeNumber_later : (t.later p).scopeNumber (p.scope scope) = t.scopeNumber scope := by
  have hlist : ∀ (scopes : Array ScopeId) (s : ScopeId),
      scopes.idxOf? s = scopes.toList.findIdx? (· == s) := by
    rintro ⟨scopes⟩ s
    rw [List.idxOf?_toArray]
    rfl
  rw [scopeNumber, scopeNumber, hlist, hlist]
  simp only [later, Array.toList_map, List.findIdx?_map]
  congr 1
  funext s
  rw [Function.comp_apply, Bool.eq_iff_iff, beq_iff_eq, beq_iff_eq]
  exact Past.scope_inj

theorem line_later (width : Nat) (e : Event) :
    (e.later p).line (t.later p) width = e.line t width := by
  cases e with
  | entry step node scope =>
    simp [Event.line, Event.later, Event.step, Event.isEntry, Event.scope, Event.node,
      Node.text_later]
  | exit step node scope value =>
    cases value <;>
      simp [Event.line, Event.later, Event.step, Event.isEntry, Event.scope, Event.node]

/-- **A listing does not show what was there before.** -/
theorem listing_later : (t.later p).listing = t.listing := by
  unfold listing
  rw [steps_later]
  simp only [show (t.later p).events = t.events.map (Event.later p) from rfl, Array.toList_map,
    List.map_map]
  refine congrArg String.join (List.map_congr_left fun e _ => ?_)
  rw [Function.comp_apply, line_later]

end Trace

end TraceTree

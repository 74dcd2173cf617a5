import Mathlib.Data.Option.Basic
import Mathlib.Data.List.Basic

/-! Runs of a deterministic partial step function, each step under a condition on the state before
it. -/

set_option autoImplicit true

variable {σ α : Type} {step : σ → α → Option σ} {ok : σ → α → Prop}

/-- A run from `s`: every step is enabled, and meets the condition in the state it starts from. -/
inductive Trace (step : σ → α → Option σ) (ok : σ → α → Prop) (s : σ) : List α → σ → Prop where
  | done : Trace step ok s [] s
  | snoc : Trace step ok s as t → ok t a → step t a = some u → Trace step ok s (as ++ [a]) u

namespace Trace

/-- What the first state has and each step preserves holds at the end of every run. -/
theorem keeps (I : σ → Prop) (hI : I s)
    (hstep : ∀ t a u, I t → ok t a → step t a = some u → I u) (h : Trace step ok s as t) : I t := by
  induction h with
  | done => exact hI
  | snoc _ hok ha ih => exact hstep _ _ _ ih hok ha

theorem mono {ok' : σ → α → Prop} (hmono : ∀ t a, ok t a → ok' t a) (h : Trace step ok s as t) :
    Trace step ok' s as t := by
  induction h with
  | done => exact .done
  | snoc _ hok ha ih => exact .snoc ih (hmono _ _ hok) ha

/-- Actions that meet the condition in every state. -/
theorem of_mem (h : Trace step ok' s as t) (hok : ∀ s, ∀ a ∈ as, ok s a) :
    Trace step ok s as t := by
  induction h with
  | done => exact .done
  | snoc _ _ ha ih =>
    refine .snoc (ih fun s a hin => hok s a (List.mem_append_left _ hin)) ?_ ha
    exact hok _ _ (List.mem_append_right _ List.mem_cons_self)

theorem append (h : Trace step ok s as t) (h' : Trace step ok t bs u) :
    Trace step ok s (as ++ bs) u := by
  induction h' with
  | done => rwa [List.append_nil]
  | snoc _ hok ha ih =>
    rw [← List.append_assoc]
    exact .snoc ih hok ha

theorem cons (hok : ok s a) (ha : step s a = some t) (h : Trace step ok t as u) :
    Trace step ok s (a :: as) u :=
  append (.snoc .done hok ha : Trace step ok s [a] t) h

/-- A run of steps that are always enabled. -/
theorem foldl {f : σ → α → σ} (hf : ∀ s a, step s a = some (f s a)) (hok : ∀ s, ∀ a ∈ as, ok s a) :
    Trace step ok s as (as.foldl f s) := by
  induction as generalizing s with
  | nil => exact .done
  | cons a as ih =>
    exact .cons (hok s a List.mem_cons_self) (hf s a)
      (ih fun s b hb => hok s b (List.mem_cons_of_mem a hb))

end Trace

/-- The end of a run, when every step of it is enabled and meets the condition. -/
def runTrace (step : σ → α → Option σ) (ok : σ → α → Prop) [∀ s a, Decidable (ok s a)] :
    σ → List α → Option σ
  | s, [] => some s
  | s, a :: as => if ok s a then (step s a).bind fun t => runTrace step ok t as else none

theorem Trace.of_runTrace [∀ s a, Decidable (ok s a)] (h : runTrace step ok s as = some t) :
    Trace step ok s as t := by
  induction as generalizing s with
  | nil =>
    obtain rfl := Option.some.inj h
    exact .done
  | cons a as ih =>
    rw [runTrace] at h
    split at h
    next hok =>
      obtain ⟨u, ha, hu⟩ := Option.bind_eq_some_iff.1 h
      exact .cons hok ha (ih hu)
    next => cases h

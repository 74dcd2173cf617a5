/-- Total correctness of a fallible stateful computation: from `s` it ends with a value and a
state that meet `Q`, or with an error and a state that meet `E`. -/
def Runs (m : EStateM ε σ α) (s : σ) (Q : α → σ → Prop) (E : ε → σ → Prop) : Prop :=
  match m s with
  | .ok a s' => Q a s'
  | .error e s' => E e s'

/-- The state of a computation that returned. -/
def endState : EStateM.Result ε σ α → Option σ
  | .ok _ s => some s
  | .error .. => none

namespace Runs
set_option autoImplicit true

theorem pure {Q : α → σ → Prop} {E : ε → σ → Prop} (h : Q a s) :
    Runs (Pure.pure a : EStateM ε σ α) s Q E := h

theorem throw {Q : α → σ → Prop} {E : ε → σ → Prop} (h : E e s) :
    Runs (MonadExcept.throw e : EStateM ε σ α) s Q E := h

theorem bind {x : EStateM ε σ α} {f : α → EStateM ε σ β}
    (h : Runs x s (fun a s' => Runs (f a) s' Q E) E) : Runs (x >>= f) s Q E := by
  unfold Runs at h ⊢
  change match EStateM.bind x f s with | .ok a s' => Q a s' | .error e s' => E e s'
  unfold EStateM.bind
  cases hx : x s <;> rw [hx] at h <;> exact h

theorem modify {Q : PUnit → σ → Prop} {E : ε → σ → Prop} (h : Q ⟨⟩ (f s)) :
    Runs (modify f : EStateM ε σ PUnit) s Q E := h

theorem get {Q : σ → σ → Prop} {E : ε → σ → Prop} (h : Q s s) :
    Runs (MonadState.get : EStateM ε σ σ) s Q E := h

theorem mono {x : EStateM ε σ α} (h : Runs x s P F) (hPQ : ∀ a s', P a s' → Q a s')
    (hFE : ∀ e s', F e s' → E e s') : Runs x s Q E := by
  unfold Runs at h ⊢
  cases hx : x s with
  | ok a s' =>
    rw [hx] at h
    exact hPQ a s' h
  | error e s' =>
    rw [hx] at h
    exact hFE e s' h

/-- What holds of a result holds when the run is known to have it. -/
theorem of_ok {x : EStateM ε σ α} (h : Runs x s Q E) (hx : x s = .ok a s') : Q a s' := by
  simpa only [Runs, hx] using h

theorem of_error {x : EStateM ε σ α} (h : Runs x s Q E) (hx : x s = .error e s') : E e s' := by
  simpa only [Runs, hx] using h

/-- The rule of a loop over a list: an invariant indexed by the elements still to come. -/
theorem forM {xs : List α} {f : α → EStateM ε σ PUnit} (I : List α → σ → Prop)
    (h0 : I xs s)
    (hstep : ∀ x rest s', I (x :: rest) s' → Runs (f x) s' (fun _ => I rest) E) :
    Runs (ForM.forM xs f) s (fun _ => I []) E := by
  induction xs generalizing s with
  | nil => exact pure h0
  | cons x rest ih =>
    rw [List.forM_cons]
    exact bind ((hstep x rest s h0).mono (fun _ s' hs' => ih hs') fun _ _ he => he)

/-- The rule of a fold over a list: the invariant also reads the accumulator. -/
theorem foldlM {xs : List α} {f : β → α → EStateM ε σ β} (I : List α → β → σ → Prop)
    (h0 : I xs b s)
    (hstep : ∀ x rest b s', I (x :: rest) b s' → Runs (f b x) s' (fun b' => I rest b') E) :
    Runs (xs.foldlM f b) s (fun b' => I [] b') E := by
  induction xs generalizing b s with
  | nil => exact pure h0
  | cons x rest ih =>
    rw [List.foldlM_cons]
    exact bind ((hstep x rest b s h0).mono (fun _ s' hs' => ih hs') fun _ _ he => he)

end Runs

/-- An assertion that holds at the end, however the computation ends. -/
def Ensures (m : EStateM ε σ α) (s : σ) (P : σ → Prop) : Prop :=
  Runs m s (fun _ s' => P s') fun _ s' => P s'

namespace Ensures
set_option autoImplicit true

theorem bind {x : EStateM ε σ α} {f : α → EStateM ε σ β}
    (h : Runs x s (fun a s' => Ensures (f a) s' P) fun _ s' => P s') : Ensures (x >>= f) s P :=
  Runs.bind h

theorem forM {xs : List α} {f : α → EStateM ε σ PUnit} (h0 : P s)
    (hstep : ∀ x ∈ xs, ∀ s', P s' → Ensures (f x) s' P) : Ensures (ForM.forM xs f) s P := by
  refine Runs.mono (Runs.forM (fun rest s' => (∀ x ∈ rest, x ∈ xs) ∧ P s')
    ⟨fun _ hx => hx, h0⟩ ?_) (fun _ _ h => h.2) fun _ _ h => h
  rintro x rest s' ⟨hsub, hs'⟩
  exact (hstep x (hsub x List.mem_cons_self) s' hs').mono
    (fun _ _ h => ⟨fun x' hx' => hsub x' (List.mem_cons_of_mem _ hx'), h⟩) fun _ _ h => h

end Ensures

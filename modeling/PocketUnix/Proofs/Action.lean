import Mathlib.Order.Defs.Unbundled
import PocketUnix.Shell.Action

/-!
# What actions leave behind

The equations of actions at a state, and the two ways in which a command can be sure not to leave
a change half made: it fails before it has changed anything, or it does not fail any more. Work
that follows a plan is of the second kind, by an invariant of the runs through the plan.
-/

namespace PocketUnix.Action

variable {σ α β : Type}

@[simp] theorem fail_apply (fault : Fault) (s : σ) :
    (fail fault : Action σ α) s = .error fault s := rfl

@[simp] theorem pure_apply (a : α) (s : σ) : (pure a : Action σ α) s = .ok a s := rfl

@[simp] theorem change_apply (f : σ → σ) (s : σ) : change f s = .ok () (f s) := rfl

@[simp] theorem ofExcept_ok (a : α) (s : σ) : (ofExcept (.ok a) : Action σ α) s = .ok a s := rfl

@[simp] theorem ofExcept_error (fault : Fault) (s : σ) :
    (ofExcept (.error fault) : Action σ α) s = .error fault s := rfl

/-- What follows an action sees the state that the action leaves, and is left out after a fault. -/
theorem bind_apply (x : Action σ α) (f : α → Action σ β) (s : σ) :
    (x >>= f) s = match x s with
      | .ok a s => f a s
      | .error fault s => .error fault s := by
  change EStateM.bind x f s = _
  unfold EStateM.bind
  cases x s <;> rfl

theorem discard_apply (x : Action σ α) (s : σ) :
    discard x s = match x s with
      | .ok _ s => .ok () s
      | .error fault s => .error fault s := by
  change EStateM.map (Function.const α ()) x s = _
  unfold EStateM.map
  cases x s <;> rfl

theorem update_ok {f : σ → Except Fault (α × σ)} {s s' : σ} {a : α} (h : f s = .ok (a, s')) :
    update f s = .ok a s' := by
  simp only [update, h]

theorem update_error {f : σ → Except Fault (α × σ)} {s : σ} {fault : Fault}
    (h : f s = .error fault) : update f s = .error fault s := by
  simp only [update, h]

/-- The action ends without a fault. -/
def Succeeds (x : Action σ α) (s : σ) : Prop := ∃ a s', x s = .ok a s'

/-- A fault of the action leaves the state as it was. -/
def KeepsOnFault (x : Action σ α) (s : σ) : Prop := ∀ fault s', x s = .error fault s' → s' = s

/-- What does not fail leaves nothing half made. -/
theorem Succeeds.keepsOnFault {x : Action σ α} {s : σ} (h : Succeeds x s) : KeepsOnFault x s := by
  intro fault s' hf
  obtain ⟨a, t, ha⟩ := h
  rw [ha] at hf
  cases hf

theorem succeeds_pure (a : α) (s : σ) : Succeeds (pure a : Action σ α) s := ⟨a, s, rfl⟩

theorem Succeeds.bind_pure {x : Action σ α} {s : σ} (h : Succeeds x s) (f : α → β) :
    Succeeds (x >>= fun a => pure (f a)) s := by
  obtain ⟨a, s', ha⟩ := h
  exact ⟨f a, s', by rw [bind_apply, ha]; rfl⟩

theorem keepsOnFault_fail (fault : Fault) (s : σ) :
    KeepsOnFault (fail fault : Action σ α) s := by
  intro _ _ h
  cases h
  rfl

/-- A single change is made or not. -/
theorem keepsOnFault_update (f : σ → Except Fault (α × σ)) (s : σ) :
    KeepsOnFault (update f) s := by
  intro fault s' h
  cases hf : f s with
  | ok p => rw [update_ok hf] at h; cases h
  | error e => rw [update_error hf] at h; cases h; rfl

/-- Work behind a plan keeps the state on a fault if it does so for the plans there can be. -/
theorem keepsOnFault_ofExcept_bind {e : Except Fault α} {f : α → Action σ β} {s : σ}
    (h : ∀ a, e = .ok a → KeepsOnFault (f a) s) : KeepsOnFault (ofExcept e >>= f) s := by
  cases e with
  | error fault => exact keepsOnFault_fail fault s
  | ok a => exact h a rfl

/-- What cannot fail may follow what keeps the state on a fault. -/
theorem KeepsOnFault.bind {x : Action σ α} {f : α → Action σ β} {s : σ} (hx : KeepsOnFault x s)
    (hf : ∀ a s', x s = .ok a s' → Succeeds (f a) s') : KeepsOnFault (x >>= f) s := by
  intro fault s' h
  rw [bind_apply] at h
  cases hs : x s with
  | error e t => rw [hs] at h; cases h; exact hx _ _ hs
  | ok a t => rw [hs] at h; exact absurd h (by obtain ⟨b, u, hu⟩ := hf a t hs; simp [hu])

theorem KeepsOnFault.bind_pure {x : Action σ α} {s : σ} (hx : KeepsOnFault x s) (f : α → β) :
    KeepsOnFault (x >>= fun a => pure (f a)) s :=
  hx.bind fun a s' _ => succeeds_pure (f a) s'

/-- A plan, the work that it asks for and an answer. -/
theorem keepsOnFault_planned {γ : Type} {e : Except Fault α} {f : α → Action σ β} {g : α → β → γ}
    {s : σ} (h : ∀ a, e = .ok a → KeepsOnFault (f a) s) :
    KeepsOnFault (ofExcept e >>= fun a => f a >>= fun b => pure (g a b)) s :=
  keepsOnFault_ofExcept_bind fun a ha => (h a ha).bind_pure (g a)

@[simp] theorem forM_nil (f : α → Action σ Unit) (s : σ) : [].forM f s = .ok () s := rfl

theorem forM_cons (f : α → Action σ Unit) (a : α) (l : List α) (s : σ) :
    (a :: l).forM f s = match f a s with
      | .ok _ s => l.forM f s
      | .error fault s => .error fault s := by
  change (f a >>= fun _ => l.forM f) s = _
  rw [bind_apply]
  cases f a s <;> rfl

/-- A run through two lists is one run after the other. -/
theorem forM_append (f : α → Action σ Unit) (l l' : List α) (s : σ) :
    (l ++ l').forM f s = match l.forM f s with
      | .ok _ s => l'.forM f s
      | .error fault s => .error fault s := by
  induction l generalizing s with
  | nil => rfl
  | cons b l ih =>
    simp only [List.cons_append, forM_cons]
    cases f b s with
    | ok _ t => exact ih t
    | error fault t => rfl

/-- The last step of a run starts where the others end. -/
theorem forM_concat (f : α → Action σ Unit) (l : List α) (a : α) (s : σ) :
    (l ++ [a]).forM f s = match l.forM f s with
      | .ok _ s => f a s
      | .error fault s => .error fault s := by
  rw [forM_append]
  cases l.forM f s with
  | ok _ t =>
    simp only [forM_cons, forM_nil]
    cases f a t <;> rfl
  | error fault t => rfl

/-- A run of steps that change nothing at a state leaves it as it is. -/
theorem keepsOnFault_forM_of_still {f : α → Action σ Unit} {l : List α} {s : σ}
    (h : ∀ a ∈ l, f a s = .ok () s ∨ ∃ fault, f a s = .error fault s) :
    KeepsOnFault (l.forM f) s := by
  induction l with
  | nil => exact (succeeds_pure () s).keepsOnFault
  | cons a l ih =>
    intro fault s' hf
    rw [forM_cons] at hf
    rcases h a List.mem_cons_self with ha | ⟨e, ha⟩
    · rw [ha] at hf
      exact ih (fun b hb => h b (List.mem_cons_of_mem a hb)) fault s' hf
    · rw [ha] at hf
      cases hf
      rfl

/-- A run does not fail if an invariant of the work to do rules out a fault of each step. -/
theorem forM_of_invariant {f : α → Action σ Unit} {I : List α → σ → Prop}
    (step : ∀ a rest s, I (a :: rest) s → ∃ s', f a s = .ok () s' ∧ I rest s')
    (l : List α) (s : σ) (h : I l s) : ∃ s', l.forM f s = .ok () s' ∧ I [] s' := by
  induction l generalizing s with
  | nil => exact ⟨s, rfl, h⟩
  | cons a l ih =>
    obtain ⟨t, ht, hI⟩ := step a l s h
    obtain ⟨s', hs, hn⟩ := ih t hI
    exact ⟨s', by rw [forM_cons, ht]; exact hs, hn⟩

theorem succeeds_forM_of_invariant {f : α → Action σ Unit} {I : List α → σ → Prop}
    (step : ∀ a rest s, I (a :: rest) s → ∃ s', f a s = .ok () s' ∧ I rest s')
    (l : List α) (s : σ) (h : I l s) : Succeeds (l.forM f) s := by
  obtain ⟨s', hs, -⟩ := forM_of_invariant step l s h
  exact ⟨(), s', hs⟩

/-- The state at the end, with or without a fault. -/
def after (x : Action σ α) (s : σ) : σ :=
  match x s with
  | .ok _ s => s
  | .error _ s => s

theorem after_bind (x : Action σ α) (f : α → Action σ β) (s : σ) :
    (x >>= f).after s = match x s with
      | .ok a s => (f a).after s
      | .error _ s => s := by
  unfold after
  rw [bind_apply]
  cases x s <;> rfl

theorem after_bind_pure (x : Action σ α) (f : α → β) (s : σ) :
    (x >>= fun a => pure (f a)).after s = x.after s := by
  rw [after_bind, after]
  cases x s <;> rfl

theorem after_discard (x : Action σ α) (s : σ) : (discard x).after s = x.after s := by
  unfold after
  rw [discard_apply]
  cases x s <;> rfl

theorem after_forM_cons (f : α → Action σ Unit) (a : α) (l : List α) (s : σ) :
    ((a :: l).forM f).after s = match f a s with
      | .ok _ s => (l.forM f).after s
      | .error _ s => s := by
  unfold after
  rw [forM_cons]
  cases f a s <;> rfl

theorem after_forM_append (f : α → Action σ Unit) (l l' : List α) (s : σ) :
    ((l ++ l').forM f).after s = match l.forM f s with
      | .ok _ s => (l'.forM f).after s
      | .error _ s => s := by
  unfold after
  rw [forM_append]
  cases l.forM f s <;> rfl

/-- The state at the end is always related to the one at the start. -/
def Within (R : σ → σ → Prop) (x : Action σ α) : Prop := ∀ s, R s (x.after s)

theorem within_of_result {R : σ → σ → Prop} {x : Action σ α} (ok : ∀ s a t, x s = .ok a t → R s t)
    (error : ∀ s fault t, x s = .error fault t → R s t) : Within R x := by
  intro s
  unfold after
  cases h : x s with
  | ok a t => exact ok s a t h
  | error fault t => exact error s fault t h

theorem Within.discard {R : σ → σ → Prop} {x : Action σ α} (h : Within R x) :
    Within R (discard x) := by
  intro s
  rw [after_discard]
  exact h s

section Preorder

variable {R : σ → σ → Prop} [IsPreorder σ R]

theorem within_pure (a : α) : Within R (pure a : Action σ α) := refl_of R

theorem within_fail (fault : Fault) : Within R (fail fault : Action σ α) := refl_of R

theorem within_ofExcept (e : Except Fault α) : Within R (ofExcept e : Action σ α) := by
  cases e with
  | ok a => exact within_pure a
  | error fault => exact within_fail fault

theorem within_update {f : σ → Except Fault (α × σ)} (h : ∀ s a t, f s = .ok (a, t) → R s t) :
    Within R (update f) := by
  intro s
  unfold after update
  cases hf : f s with
  | error fault => exact refl_of R s
  | ok p => exact h s p.1 p.2 hf

/-- Two actions within a transitive relation are within it one after the other. -/
theorem Within.bind {x : Action σ α} {f : α → Action σ β} (hx : Within R x)
    (hf : ∀ a, Within R (f a)) : Within R (x >>= f) := by
  intro s
  have hs := hx s
  rw [after_bind]
  unfold after at hs
  cases h : x s with
  | error fault t => rwa [h] at hs
  | ok a t =>
    rw [h] at hs
    exact trans_of R hs (hf a t)

theorem Within.forM {f : α → Action σ Unit} (hf : ∀ a, Within R (f a)) (l : List α) :
    Within R (l.forM f) := by
  induction l with
  | nil => exact within_pure ()
  | cons a l ih => exact (hf a).bind fun _ => ih

theorem within_forM_of_mem {f : α → Action σ Unit} {l : List α} (h : ∀ a ∈ l, Within R (f a)) :
    Within R (l.forM f) := by
  induction l with
  | nil => exact within_pure ()
  | cons a l ih =>
    have hrest : Within R (l.forM f) := ih fun b hb => h b (List.mem_cons_of_mem a hb)
    exact (h a List.mem_cons_self).bind fun _ => hrest

/-- Work behind a plan is within the relation if it is for the plans there can be. -/
theorem within_planned {e : Except Fault α} {f : α → Action σ β}
    (h : ∀ a, e = .ok a → Within R (f a)) : Within R (ofExcept e >>= f) := by
  cases e with
  | error fault => exact within_fail fault
  | ok a => exact h a rfl

end Preorder

/-- The states are related as long as a guard holds, and the guard still holds. -/
def Guarded (G : σ → Prop) (R : σ → σ → Prop) (s t : σ) : Prop := G s → G t ∧ R s t

instance (G : σ → Prop) (R : σ → σ → Prop) [IsPreorder σ R] : IsPreorder σ (Guarded G R) where
  refl s hs := ⟨hs, refl_of R s⟩
  trans s t u h h' hs := by
    obtain ⟨ht, hst⟩ := h hs
    obtain ⟨hu, htu⟩ := h' ht
    exact ⟨hu, trans_of R hst htu⟩

/-- A property of the first state is one of the last. -/
def Keeping (I : σ → Prop) (s t : σ) : Prop := I s → I t

instance (I : σ → Prop) : IsPreorder σ (Keeping I) where
  refl _ := id
  trans _ _ _ h h' := h' ∘ h

theorem Within.keeps {I : σ → Prop} {x : Action σ α} (h : Within (Keeping I) x) {s : σ} (hs : I s) :
    I (x.after s) := h s hs

end PocketUnix.Action

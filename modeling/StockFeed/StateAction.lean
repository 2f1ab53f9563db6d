import Mathlib.Data.Nat.Notation
import Mathlib.Tactic.Basic

/-!
# State actions which may fail

Small rules for `EStateM`: what the primitive actions do when applied to a
state, how a sequence of two actions and a repetition over a list run, and
which exceptions an action can raise at all.  A failed action keeps the state
it had reached, so `finalState` is meaningful for every outcome.
-/

namespace StockFeed
namespace StateAction

variable {ε σ α β γ : Type}

/-- State an action has reached, whether it ended normally or not. -/
def finalState : EStateM.Result ε σ α → σ
  | .ok _ s => s
  | .error _ s => s

@[simp] theorem finalState_ok (a : α) (s : σ) :
    finalState (.ok a s : EStateM.Result ε σ α) = s := rfl

@[simp] theorem finalState_error (e : ε) (s : σ) :
    finalState (.error e s : EStateM.Result ε σ α) = s := rfl

@[simp] theorem pure_apply (a : α) (s : σ) :
    (pure a : EStateM ε σ α) s = .ok a s := rfl

@[simp] theorem get_apply (s : σ) :
    (get : EStateM ε σ σ) s = .ok s s := rfl

@[simp] theorem set_apply (s s' : σ) :
    (set s' : EStateM ε σ PUnit) s = .ok ⟨⟩ s' := rfl

@[simp] theorem modify_apply (f : σ → σ) (s : σ) :
    (modify f : EStateM ε σ PUnit) s = .ok ⟨⟩ (f s) := rfl

@[simp] theorem throw_apply (e : ε) (s : σ) :
    (throw e : EStateM ε σ α) s = .error e s := rfl

theorem bind_apply (x : EStateM ε σ α) (f : α → EStateM ε σ β) (s : σ) :
    (x >>= f) s =
      match x s with
      | .ok a s' => f a s'
      | .error e s' => .error e s' := rfl

theorem bind_apply_of_ok
    {x : EStateM ε σ α} {s s' : σ} {a : α}
    (hx : x s = .ok a s') (f : α → EStateM ε σ β) :
    (x >>= f) s = f a s' := by
  rw [bind_apply, hx]

theorem bind_apply_of_error
    {x : EStateM ε σ α} {s s' : σ} {e : ε}
    (hx : x s = .error e s') (f : α → EStateM ε σ β) :
    (x >>= f) s = .error e s' := by
  rw [bind_apply, hx]

theorem finalState_bind_pure (x : EStateM ε σ α) (b : β) (s : σ) :
    finalState ((x >>= fun _ => pure b) s) = finalState (x s) := by
  rw [bind_apply]
  cases x s with
  | ok a s' => rfl
  | error e s' => rfl

/-! ## Repetition over a list -/

@[simp] theorem forM_nil_apply (f : α → EStateM ε σ PUnit) (s : σ) :
    forM ([] : List α) f s = .ok ⟨⟩ s := rfl

theorem forM_cons_apply
    (f : α → EStateM ε σ PUnit) (a : α) (rest : List α) (s : σ) :
    forM (a :: rest) f s =
      match f a s with
      | .ok _ s' => forM rest f s'
      | .error e s' => .error e s' := by
  rw [List.forM_cons, bind_apply]
  cases f a s <;> rfl

theorem forM_range_apply_of_error
    {n : ℕ} (hn : 0 < n) {f : ℕ → EStateM ε σ PUnit} {s s' : σ} {e : ε}
    (hfirst : f 0 s = .error e s') :
    forM (List.range n) f s = .error e s' := by
  obtain ⟨rest, rfl⟩ := Nat.exists_eq_add_of_lt hn
  rw [Nat.zero_add, List.range_succ_eq_map, forM_cons_apply, hfirst]

/-! ## Repetition with an accumulator -/

theorem foldlM_flatMap
    (g : β → List α) (f : γ → α → EStateM ε σ γ) (items : List β) (acc : γ) :
    (items.flatMap g).foldlM f acc =
      items.foldlM (fun acc item => (g item).foldlM f acc) acc := by
  induction items generalizing acc with
  | nil => rfl
  | cons item rest ih =>
      rw [List.flatMap_cons, List.foldlM_append, List.foldlM_cons]
      congr 1
      funext acc'
      exact ih acc'

/-- A repetition whose states are numbered: every turn leads from one state to
the next. -/
theorem foldlM_apply_of_steps
    {f : γ → α → EStateM ε σ γ} {g : γ → α → γ} {states : ℕ → σ}
    {items : List α}
    (hstep : ∀ item ∈ items, ∀ acc k,
      f acc item (states k) = .ok (g acc item) (states (k + 1)))
    (acc : γ) (k : ℕ) :
    items.foldlM f acc (states k) =
      .ok (items.foldl g acc) (states (k + items.length)) := by
  induction items generalizing acc k with
  | nil => rfl
  | cons item rest ih =>
      rw [List.foldlM_cons,
        bind_apply_of_ok (hstep item List.mem_cons_self acc k),
        ih (fun other hother => hstep other (List.mem_cons_of_mem item hother)),
        List.foldl_cons, List.length_cons, Nat.add_assoc, Nat.add_comm 1]

/-! ## Exceptions which cannot be raised -/

/-- The action never ends with `e`, from any state. -/
def Avoids (e : ε) (x : EStateM ε σ α) : Prop :=
  ∀ s s', x s ≠ .error e s'

theorem avoids_pure (e : ε) (a : α) :
    Avoids e (pure a : EStateM ε σ α) := by
  intro s s'
  simp

theorem avoids_get (e : ε) : Avoids e (get : EStateM ε σ σ) := by
  intro s s'
  simp

theorem avoids_set (e : ε) (t : σ) :
    Avoids e (set t : EStateM ε σ PUnit) := by
  intro s s'
  simp

theorem avoids_modify (e : ε) (f : σ → σ) :
    Avoids e (modify f : EStateM ε σ PUnit) := by
  intro s s'
  simp

theorem avoids_throw {e e' : ε} (hne : e' ≠ e) :
    Avoids e (throw e' : EStateM ε σ α) := by
  intro s s'
  simp [hne]

theorem Avoids.bind
    {e : ε} {x : EStateM ε σ α} {f : α → EStateM ε σ β}
    (hx : Avoids e x) (hf : ∀ a, Avoids e (f a)) : Avoids e (x >>= f) := by
  intro s s'
  rw [bind_apply]
  cases hresult : x s with
  | ok a s₁ => exact hf a s₁ s'
  | error e' s₁ =>
      intro heq
      rw [EStateM.Result.error.injEq] at heq
      exact hx s s₁ (by rw [hresult, heq.1])

theorem Avoids.ite
    {e : ε} {c : Prop} [Decidable c] {x y : EStateM ε σ α}
    (hx : Avoids e x) (hy : Avoids e y) :
    Avoids e (if c then x else y) := by
  split
  · exact hx
  · exact hy

theorem avoids_forM
    {e : ε} {f : α → EStateM ε σ PUnit} (hf : ∀ a, Avoids e (f a))
    (items : List α) : Avoids e (forM items f) := by
  induction items with
  | nil => exact avoids_pure e _
  | cons a rest ih =>
      rw [List.forM_cons]
      exact (hf a).bind fun _ => ih

/-! ## Parts of the state which stay -/

variable {τ : Type}

/-- The action leaves `f` of the state as it is, whatever its outcome. -/
def Keeps (f : σ → τ) (x : EStateM ε σ α) : Prop :=
  ∀ s, f (finalState (x s)) = f s

theorem keeps_pure (f : σ → τ) (a : α) :
    Keeps f (pure a : EStateM ε σ α) := fun _ => rfl

theorem keeps_throw (f : σ → τ) (e : ε) :
    Keeps f (throw e : EStateM ε σ α) := fun _ => rfl

theorem keeps_get (f : σ → τ) : Keeps f (get : EStateM ε σ σ) := fun _ => rfl

theorem keeps_modify {f : σ → τ} {g : σ → σ} (hg : ∀ s, f (g s) = f s) :
    Keeps f (modify g : EStateM ε σ PUnit) := hg

theorem Keeps.bind
    {f : σ → τ} {x : EStateM ε σ α} {k : α → EStateM ε σ β}
    (hx : Keeps f x) (hk : ∀ a, Keeps f (k a)) : Keeps f (x >>= k) := by
  intro s
  have hfirst := hx s
  rw [bind_apply]
  cases hresult : x s with
  | ok a s₁ =>
      rw [hresult] at hfirst
      exact (hk a s₁).trans hfirst
  | error e s₁ =>
      rw [hresult] at hfirst
      exact hfirst

theorem Keeps.ite
    {f : σ → τ} {c : Prop} [Decidable c] {x y : EStateM ε σ α}
    (hx : Keeps f x) (hy : Keeps f y) : Keeps f (if c then x else y) := by
  split
  · exact hx
  · exact hy

end StateAction
end StockFeed

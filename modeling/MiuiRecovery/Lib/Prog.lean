import Mathlib.Logic.Relation

/-!
# Programs that can be cut off

A program is a tree of calls into a device. A call answers in any way the device's semantics
allows, and the run can be cut off between any two calls.

* `Prog.Reaches`: the states in which a run can be cut off.
* `Prog.Returns`: the results of the runs that are not cut off.
* `Prog.wp_iff`: `wp C Q` is exactly "`C` at every cut, `Q` at the return".
* `Prog.Restarts`: any number of runs of one program, each cut off anywhere, one after the other;
  `Prog.Restarts.invariant` is the induction over them.
-/

/-- A program over the calls `Op`. -/
inductive Prog (Op : Type → Type) (α : Type) : Type 1
  | ret (a : α)
  | op {β : Type} (o : Op β) (k : β → Prog Op α)

namespace Prog

variable {Op : Type → Type} {α β : Type}

/-- Run `p`, then `f` on its result. -/
def bind (p : Prog Op α) (f : α → Prog Op β) : Prog Op β :=
  match p with
  | ret a => f a
  | op o k => op o fun r => (k r).bind f

instance : Monad (Prog Op) where
  pure := ret
  bind := bind

/-- A single call. -/
def call (o : Op α) : Prog Op α := op o ret

@[simp] theorem pure_eq (a : α) : (pure a : Prog Op α) = ret a := rfl

@[simp] theorem ret_bind (a : α) (f : α → Prog Op β) : (ret a >>= f) = f a := rfl

@[simp] theorem call_bind (o : Op α) (f : α → Prog Op β) : (call o >>= f) = op o f := rfl

@[simp] theorem op_bind {γ : Type} (o : Op γ) (k : γ → Prog Op α) (f : α → Prog Op β) :
    (op o k >>= f) = op o fun r => k r >>= f := rfl

/-! ## Runs -/

/-- What a call can answer in a state, and the state after it. -/
def Sem (Op : Type → Type) (S : Type) : Type 1 := ∀ β : Type, Op β → S → β → S → Prop

variable {S : Type} {sem : Sem Op S}

/-- A run of `p` from `s` can be cut off in `s'`. -/
inductive Reaches (sem : Sem Op S) : Prog Op α → S → S → Prop
  | here {p : Prog Op α} {s : S} : Reaches sem p s s
  | step {γ : Type} {o : Op γ} {k : γ → Prog Op α} {s s₁ s' : S} {r : γ} (h : sem _ o s r s₁)
      (t : Reaches sem (k r) s₁ s') : Reaches sem (op o k) s s'

/-- A run of `p` from `s` returns `a` in `s'`. -/
inductive Returns (sem : Sem Op S) : Prog Op α → S → α → S → Prop
  | ret {a : α} {s : S} : Returns sem (ret a) s a s
  | step {γ : Type} {o : Op γ} {k : γ → Prog Op α} {s s₁ s' : S} {r : γ} {a : α}
      (h : sem _ o s r s₁) (t : Returns sem (k r) s₁ a s') : Returns sem (op o k) s a s'

/-- The state of the return is the last in which the run can be cut off. -/
theorem Returns.reaches {p : Prog Op α} {s s' : S} {a : α} (h : Returns sem p s a s') :
    Reaches sem p s s' := by
  induction h with
  | ret => exact .here
  | step h _ ih => exact .step h ih

theorem Returns.bind {p : Prog Op α} {f : α → Prog Op β} {s s₁ s₂ : S} {a : α} {b : β}
    (h : Returns sem p s a s₁) (h' : Returns sem (f a) s₁ b s₂) : Returns sem (p >>= f) s b s₂ := by
  induction h with
  | ret => exact h'
  | step h _ ih => exact .step h (ih h')

/-- A cut behind the first part of a run. -/
theorem Returns.reaches_bind {p : Prog Op α} {f : α → Prog Op β} {s s₁ s₂ : S} {a : α}
    (h : Returns sem p s a s₁) (h' : Reaches sem (f a) s₁ s₂) : Reaches sem (p >>= f) s s₂ := by
  induction h with
  | ret => exact h'
  | step h _ ih => exact .step h (ih h')

/-- A cut in the first part of a run. -/
theorem Reaches.bind {p : Prog Op α} {s s' : S} (h : Reaches sem p s s') (f : α → Prog Op β) :
    Reaches sem (p >>= f) s s' := by
  induction h with
  | here => exact .here
  | step h _ ih => exact .step h ih

/-- Where every call has an answer in every state, every program has a run. -/
theorem exists_returns (hsem : ∀ {γ : Type} (o : Op γ) (s : S), ∃ r s', sem _ o s r s')
    (p : Prog Op α) (s : S) : ∃ a s', Returns sem p s a s' := by
  induction p generalizing s with
  | ret a => exact ⟨a, s, .ret⟩
  | op o k ih =>
    obtain ⟨r, s₁, hs⟩ := hsem o s
    obtain ⟨a, s', h⟩ := ih r s₁
    exact ⟨a, s', .step hs h⟩

/-- The run in which each call is answered by `answer`. -/
def exec (answer : ∀ β : Type, Op β → S → β × S) : Prog Op α → S → α × S
  | ret a, s => (a, s)
  | op o k, s => exec answer (k (answer _ o s).1) (answer _ o s).2

theorem exec_bind {answer : ∀ β : Type, Op β → S → β × S} (p : Prog Op α) (f : α → Prog Op β) (s : S) :
    exec answer (p >>= f) s = exec answer (f (exec answer p s).1) (exec answer p s).2 := by
  induction p generalizing s with
  | ret a => rfl
  | op o k ih => exact ih _ _

/-- Answers that depend on more than the state of the device, such as on how many calls there were. -/
theorem exec_returns_view {T : Type} (view : T → S) {answer : ∀ β : Type, Op β → T → β × T}
    (hanswer : ∀ {β : Type} (o : Op β) (t : T), sem _ o (view t) (answer _ o t).1 (view (answer _ o t).2))
    (p : Prog Op α) (t : T) : Returns sem p (view t) (exec answer p t).1 (view (exec answer p t).2) := by
  induction p generalizing t with
  | ret a => exact .ret
  | op o k ih => exact .step (hanswer o t) (ih _ _)

theorem exec_returns {answer : ∀ β : Type, Op β → S → β × S}
    (hanswer : ∀ {β : Type} (o : Op β) (s : S), sem _ o s (answer _ o s).1 (answer _ o s).2)
    (p : Prog Op α) (s : S) : Returns sem p s (exec answer p s).1 (exec answer p s).2 :=
  exec_returns_view id hanswer p s

/-- The run in which each call is answered by `answer`, where every call has an answer. -/
def exec? (answer : ∀ β : Type, Op β → S → Option (β × S)) : Prog Op α → S → Option (α × S)
  | ret a, s => some (a, s)
  | op o k, s =>
    match answer _ o s with
    | none => none
    | some (r, s) => exec? answer (k r) s

theorem exec?_bind {answer : ∀ β : Type, Op β → S → Option (β × S)} (p : Prog Op α) (f : α → Prog Op β)
    (s : S) : exec? answer (p >>= f) s = (exec? answer p s).bind fun r => exec? answer (f r.1) r.2 := by
  induction p generalizing s with
  | ret a => rfl
  | op o k ih =>
    simp only [op_bind, exec?]
    cases answer _ o s with
    | none => rfl
    | some r => exact ih r.1 r.2

theorem exec?_returns {answer : ∀ β : Type, Op β → S → Option (β × S)}
    (hanswer : ∀ {β : Type} {o : Op β} {s : S} {r : β} {s' : S}, answer _ o s = some (r, s') → sem _ o s r s')
    {p : Prog Op α} {s s' : S} {a : α} (h : exec? answer p s = some (a, s')) : Returns sem p s a s' := by
  induction p generalizing s with
  | ret b =>
    obtain ⟨rfl, rfl⟩ := Prod.mk.inj (Option.some.inj h)
    exact .ret
  | op o k ih =>
    rw [exec?] at h
    cases hr : answer _ o s with
    | none =>
      rw [hr] at h
      cases h
    | some r =>
      rw [hr] at h
      exact .step (hanswer hr) (ih _ h)

/-! ## Weakest preconditions with a crash condition -/

/-- Every state in which `p` can be cut off has `C`, and every return has `Q`. -/
def wp (sem : Sem Op S) (C : S → Prop) (Q : α → S → Prop) : Prog Op α → S → Prop
  | ret a, s => C s ∧ Q a s
  | op o k, s => C s ∧ ∀ r s', sem _ o s r s' → wp sem C Q (k r) s'

variable {C C' : S → Prop} {Q Q' : α → S → Prop} {p : Prog Op α} {s : S}

@[simp] theorem wp_ret {a : α} : wp sem C Q (ret a) s ↔ C s ∧ Q a s := Iff.rfl

@[simp] theorem wp_op {γ : Type} {o : Op γ} {k : γ → Prog Op α} :
    wp sem C Q (op o k) s ↔ C s ∧ ∀ r s', sem _ o s r s' → wp sem C Q (k r) s' := Iff.rfl

/-- A run can be cut off before its first call. -/
theorem wp_crash (h : wp sem C Q p s) : C s := by
  cases p with
  | ret => exact h.1
  | op => exact h.1

theorem wp_mono (hC : ∀ s, C s → C' s) (hQ : ∀ a s, C s → Q a s → Q' a s) (h : wp sem C Q p s) :
    wp sem C' Q' p s := by
  induction p generalizing s with
  | ret a => exact ⟨hC _ h.1, hQ _ _ h.1 h.2⟩
  | op o k ih => exact ⟨hC _ h.1, fun r s' hs => ih r (h.2 r s' hs)⟩

theorem wp_and (h : wp sem C Q p s) (h' : wp sem C Q' p s) : wp sem C (fun a s => Q a s ∧ Q' a s) p s := by
  induction p generalizing s with
  | ret a => exact ⟨h.1, h.2, h'.2⟩
  | op o k ih => exact ⟨h.1, fun r s' hs => ih r (h.2 r s' hs) (h'.2 r s' hs)⟩

theorem wp_bind {f : α → Prog Op β} {Q : β → S → Prop} :
    wp sem C Q (p >>= f) s ↔ wp sem C (fun a => wp sem C Q (f a)) p s := by
  induction p generalizing s with
  | ret a => exact ⟨fun h => ⟨wp_crash h, h⟩, fun h => h.2⟩
  | op o k ih =>
    simp only [op_bind, wp_op, ih]

/-- A weakest precondition is what it says about the runs. -/
theorem wp_iff : wp sem C Q p s ↔
    (∀ s', Reaches sem p s s' → C s') ∧ ∀ a s', Returns sem p s a s' → Q a s' := by
  constructor
  · intro h
    constructor
    · intro s' hr
      induction hr with
      | here => exact wp_crash h
      | step hs _ ih => exact ih (h.2 _ _ hs)
    · intro a s' hr
      induction hr with
      | ret => exact h.2
      | step hs _ ih => exact ih (h.2 _ _ hs)
  · intro h
    induction p generalizing s with
    | ret a => exact ⟨h.1 _ .here, h.2 _ _ .ret⟩
    | op o k ih =>
      refine ⟨h.1 _ .here, fun r s' hs => ih r ⟨fun t ht => h.1 _ (.step hs ht), ?_⟩⟩
      exact fun a t ht => h.2 _ _ (.step hs ht)

theorem wp_reaches {s' : S} (h : wp sem C Q p s) (hr : Reaches sem p s s') : C s' :=
  (wp_iff.mp h).1 _ hr

theorem wp_returns {a : α} {s' : S} (h : wp sem C Q p s) (hr : Returns sem p s a s') : Q a s' :=
  (wp_iff.mp h).2 _ _ hr

/-! ## Interrupted runs, one after the other -/

/-- Any number of runs of `p`, each started in a state with `R`, cut off anywhere and started again in
the state it left. -/
def Restarts (sem : Sem Op S) (p : Prog Op α) (R : S → Prop) : S → S → Prop :=
  Relation.ReflTransGen fun s s' => R s ∧ Reaches sem p s s'

/-- What one run keeps at every cut, any number of interrupted runs keep. -/
theorem Restarts.invariant {R I : S → Prop} {s s' : S}
    (hstep : ∀ s, R s → I s → wp sem I (fun _ _ => True) p s) (h : Restarts sem p R s s')
    (hs : I s) : I s' := by
  induction h with
  | refl => exact hs
  | tail _ hr ih => exact wp_reaches (hstep _ hr.1 ih) hr.2

end Prog

import Mathlib.Tactic

/-!
# Foundations/Hoare — pre- and postconditions for programs that update a state and may fault

A program over a state `σ` that may stop with a fault `ε` is a `StateT σ (Except ε)`.  One triple
serves three purposes:

    Spec P m Q E  :  from a state in `P`, `m` returns into `Q` or faults into `E`

* `E = ⊤` is partial correctness, `E = ⊥` total correctness;
* `E = (· ≠ e)` says that one fault `e` cannot happen.

A *frame* `Frames v m` says that `m` leaves the part `v` of the state alone.  The rules of both
follow the program text; `bind_eq_ok_iff` and `bind_eq_error_iff` take a run apart where they are
too coarse.
-/

namespace Hoare

open List

variable {ε σ τ α β γ : Type} {s s' s'' : σ} {m n : StateT σ (Except ε) α}
  {f : α → StateT σ (Except ε) β} {e : ε} {a : α} {l : List γ} {c : Prop}

/-! ## Runs of a bind -/

/-- A bind returns iff both parts do. -/
theorem bind_eq_ok_iff {b : β} :
    (m >>= f) s = .ok (b, s'') ↔ ∃ a s', m s = .ok (a, s') ∧ f a s' = .ok (b, s'') := by
  change (m s >>= fun p => f p.1 p.2) = _ ↔ _
  cases h : m s with
  | error e => simp [bind, Except.bind]
  | ok p =>
    obtain ⟨a, s'⟩ := p
    simp [bind, Except.bind]

/-- …and faults iff one of them does. -/
theorem bind_eq_error_iff : (m >>= f) s = .error e
      ↔ m s = .error e ∨ ∃ a s', m s = .ok (a, s') ∧ f a s' = .error e := by
  change (m s >>= fun p => f p.1 p.2) = _ ↔ _
  cases h : m s with
  | error e => simp [bind, Except.bind]
  | ok p =>
    obtain ⟨a, s'⟩ := p
    simp [bind, Except.bind]

/-- Running on after the first part of a bind has returned. -/
theorem bind_of_ok (h : m s = .ok (a, s')) : (m >>= f) s = f a s' := by
  change (m s >>= fun p => f p.1 p.2) = _
  rw [h]
  rfl

/-- Reading the state. -/
theorem get_run (s : σ) : (get : StateT σ (Except ε) σ) s = .ok (s, s) := rfl

/-- Updating the state. -/
theorem modify_run (f : σ → σ) (s : σ) :
    (modify f : StateT σ (Except ε) PUnit) s = .ok (⟨⟩, f s) := rfl

/-- …and after it has faulted. -/
theorem bind_of_error (h : m s = .error e) : (m >>= f) s = .error e :=
  bind_eq_error_iff.mpr (.inl h)

/-- Two binds that run alike. -/
theorem bind_run_congr {g : α → StateT σ (Except ε) β} {t : σ}
    (h : m s = n t) (hfg : ∀ a s', m s = .ok (a, s') → f a s' = g a s') :
    (m >>= f) s = (n >>= g) t := by
  cases hm : m s with
  | error e => rw [bind_of_error hm, bind_of_error (h ▸ hm)]
  | ok p => rw [bind_of_ok hm, bind_of_ok (h ▸ hm), hfg p.1 p.2 hm]

/-- A result thrown away. -/
theorem discard_eq_ok_iff :
    (m >>= fun _ => pure PUnit.unit) s = .ok (⟨⟩, s') ↔ ∃ a, m s = .ok (a, s') := by
  rw [bind_eq_ok_iff]
  constructor
  · rintro ⟨a, s'', h, hpure⟩
    cases hpure
    exact ⟨a, h⟩
  · rintro ⟨a, h⟩
    exact ⟨a, s', h, rfl⟩

/-- A loop in two parts. -/
theorem forM_append_eq_ok_iff {l' : List γ} {f : γ → StateT σ (Except ε) PUnit} :
    (l ++ l').forM f s = .ok (⟨⟩, s'')
      ↔ ∃ s', l.forM f s = .ok (⟨⟩, s') ∧ l'.forM f s' = .ok (⟨⟩, s'') := by
  have happ : (l ++ l').forM f = l.forM f >>= fun _ => l'.forM f := forM_append
  rw [happ, bind_eq_ok_iff]
  exact ⟨fun ⟨_, h⟩ => h, fun h => ⟨⟨⟩, h⟩⟩

/-- The last round of a loop. -/
theorem forM_concat_eq_ok_iff {x : γ} {f : γ → StateT σ (Except ε) PUnit} :
    (l ++ [x]).forM f s = .ok (⟨⟩, s'')
      ↔ ∃ s', l.forM f s = .ok (⟨⟩, s') ∧ f x s' = .ok (⟨⟩, s'') := by
  have hone : ∀ s', [x].forM f s' = .ok (⟨⟩, s'') ↔ f x s' = .ok (⟨⟩, s'') := fun s' =>
    discard_eq_ok_iff.trans ⟨fun ⟨_, h⟩ => h, fun h => ⟨⟨⟩, h⟩⟩
  simp only [forM_append_eq_ok_iff, hone]

/-- The last round of an accumulating loop. -/
theorem foldlM_concat_eq_ok_iff {x : γ} {f : α → γ → StateT σ (Except ε) α} {b : α} :
    (l ++ [x]).foldlM f a s = .ok (b, s'')
      ↔ ∃ c s', l.foldlM f a s = .ok (c, s') ∧ f c x s' = .ok (b, s'') := by
  rw [foldlM_append, bind_eq_ok_iff]
  simp only [foldlM_cons, foldlM_nil, bind_pure]

/-! ## Triples -/

/-- From a state in `P` the program returns into `Q` or faults into `E`. -/
def Spec (P : σ → Prop) (m : StateT σ (Except ε) α) (Q : α → σ → Prop) (E : ε → Prop) : Prop :=
  ∀ s, P s → (∀ a s', m s = .ok (a, s') → Q a s') ∧ ∀ e, m s = .error e → E e

section Ends

variable {Q : α → σ → Prop} {E : ε → Prop}

/-- A run that returns. -/
theorem ends_ok (h : Q a s) : (∀ b s', (.ok (a, s) : Except ε (α × σ)) = .ok (b, s') → Q b s')
    ∧ ∀ e, (.ok (a, s) : Except ε (α × σ)) = .error e → E e :=
  ⟨fun b s' hm => by cases hm; exact h, nofun⟩

/-- A run that faults. -/
theorem ends_error (h : E e) : (∀ b s', (.error e : Except ε (α × σ)) = .ok (b, s') → Q b s')
    ∧ ∀ e', (.error e : Except ε (α × σ)) = .error e' → E e' :=
  ⟨nofun, fun e' hm => by cases hm; exact h⟩

end Ends

/-- The program keeps `P`. -/
abbrev Keeps (P : σ → Prop) (m : StateT σ (Except ε) α) (E : ε → Prop) : Prop :=
  Spec P m (fun _ => P) E

namespace Spec

variable {P P' : σ → Prop} {Q Q' : α → σ → Prop} {R : β → σ → Prop} {E E' : ε → Prop}

theorem ok (h : Spec P m Q E) {s s' : σ} (hs : P s) (hm : m s = .ok (a, s')) : Q a s' :=
  (h s hs).1 a s' hm

theorem error (h : Spec P m Q E) (hs : P s) (hm : m s = .error e) : E e := (h s hs).2 e hm

/-- **Consequence.** -/
theorem mono (h : Spec P m Q E) (hP : ∀ s, P' s → P s) (hQ : ∀ a s, Q a s → Q' a s)
    (hE : ∀ e, E e → E' e) : Spec P' m Q' E' := fun s hs =>
  ⟨fun a s' hm => hQ a s' (h.ok (hP s hs) hm), fun e hm => hE e (h.error (hP s hs) hm)⟩

theorem post (h : Spec P m Q E) (hQ : ∀ a s, Q a s → Q' a s) :
    Spec P m Q' E := h.mono (fun _ hp => hp) hQ (fun _ he => he)

protected theorem pure (h : ∀ s, P s → Q a s) : Spec P (pure a) Q E :=
  fun s hs => ends_ok (h s hs)

/-- **Sequencing.** -/
protected theorem bind
    (hm : Spec P m Q E) (hf : ∀ a, Spec (Q a) (f a) R E) : Spec P (m >>= f) R E := fun s hs => by
  refine ⟨fun b s'' h => ?_, fun e h => ?_⟩
  · obtain ⟨a, s', h1, h2⟩ := bind_eq_ok_iff.mp h
    exact (hf a).ok (hm.ok hs h1) h2
  · rcases bind_eq_error_iff.mp h with h1 | ⟨a, s', h1, h2⟩
    · exact hm.error hs h1
    · exact (hf a).error (hm.ok hs h1) h2

/-- Reading the state: what is read satisfies the precondition. -/
theorem get_bind {f : σ → StateT σ (Except ε) β} (h : ∀ s, P s → Spec P (f s) R E) :
    Spec P (get >>= f) R E := fun s hs => h s hs s hs

protected theorem modify {f : σ → σ} {Q : PUnit → σ → Prop} (h : ∀ s, P s → Q ⟨⟩ (f s)) :
    Spec P (modify f : StateT σ (Except ε) PUnit) Q E :=
  fun s hs => ends_ok (h s hs)

protected theorem throw {e : ε} (h : E e) : Spec P (throw e : StateT σ (Except ε) α) Q E :=
  fun _ _ => ends_error h

protected theorem ite [Decidable c]
    (hm : c → Spec P m Q E) (hn : ¬ c → Spec P n Q E) : Spec P (if c then m else n) Q E := by
  split
  · exact hm ‹_›
  · exact hn ‹_›

/-- **Loops**: an invariant of the body is one of the loop. -/
protected theorem forM {f : γ → StateT σ (Except ε) PUnit}
    (h : ∀ x ∈ l, Keeps P (f x) E) : Keeps P (l.forM f) E := by
  induction l with
  | nil => exact .pure fun _ hs => hs
  | cons x l ih =>
    exact (h x mem_cons_self).bind fun _ => ih fun y hy => h y (mem_cons_of_mem _ hy)

protected theorem foldlM {f : α → γ → StateT σ (Except ε) α} (h : ∀ a x, Keeps P (f a x) E)
    (l : List γ) (a : α) : Keeps P (l.foldlM f a) E := by
  induction l generalizing a with
  | nil => exact .pure fun _ hs => hs
  | cons x l ih =>
    rw [foldlM_cons]
    exact (h a x).bind ih

end Spec

namespace Keeps

variable {P : σ → Prop} {E : ε → Prop}

protected theorem pure : Keeps P (pure a) E := Spec.pure fun _ hs => hs

protected theorem modify {f : σ → σ} (h : ∀ s, P s → P (f s)) :
    Keeps P (modify f : StateT σ (Except ε) PUnit) E := Spec.modify h

/-- A program under a condition. -/
theorem when [Decidable c] (h : c → Keeps P m E) : Keeps P (if c then m else pure a) E :=
  Spec.ite h fun _ => Keeps.pure

end Keeps

/-! ## Frames -/

/-- A run of `m` leaves `v` as it was. -/
def Frames (v : σ → τ) (m : StateT σ (Except ε) α) : Prop :=
  ∀ s a s', m s = .ok (a, s') → v s' = v s

namespace Frames

variable {v : σ → τ}

protected theorem pure (a : α) : Frames v (pure a : StateT σ (Except ε) α) := by
  intro s b s' h
  cases h
  rfl

protected theorem bind
    (hm : Frames v m) (hf : ∀ a, Frames v (f a)) : Frames v (m >>= f) := by
  intro s b s'' h
  obtain ⟨a, s', h1, h2⟩ := bind_eq_ok_iff.mp h
  exact (hf a s' b s'' h2).trans (hm s a s' h1)

protected theorem get : Frames v (get : StateT σ (Except ε) σ) := by
  intro s a s' h
  cases h
  rfl

protected theorem modify {f : σ → σ} (h : ∀ s, v (f s) = v s) :
    Frames v (modify f : StateT σ (Except ε) PUnit) := by
  intro s a s' hm
  cases hm
  exact h s

protected theorem throw (e : ε) : Frames v (throw e : StateT σ (Except ε) α) := by
  intro s a s' h
  cases h

protected theorem ite [Decidable c] (hm : Frames v m)
    (hn : Frames v n) : Frames v (if c then m else n) := by
  split
  · exact hm
  · exact hn

protected theorem forM {f : γ → StateT σ (Except ε) PUnit}
    (h : ∀ x, Frames v (f x)) : Frames v (l.forM f) := by
  induction l with
  | nil => exact .pure _
  | cons x l ih => exact (h x).bind fun _ => ih

protected theorem foldlM {f : α → γ → StateT σ (Except ε) α} (h : ∀ a x, Frames v (f a x))
    (l : List γ) (a : α) : Frames v (l.foldlM f a) := by
  induction l generalizing a with
  | nil => exact .pure _
  | cons x l ih =>
    rw [foldlM_cons]
    exact (h a x).bind ih

end Frames

/-! ## Programs that do not look at a part of the state -/

/-- `m` does the same before and after the update `g` of the state, whose effect it passes on. -/
def Commutes (g : σ → σ) (m : StateT σ (Except ε) α) : Prop :=
  ∀ s, m (g s) = (m s).map (Prod.map id g)

namespace Commutes

variable {g : σ → σ}

theorem ok (h : Commutes g m) (hm : m s = .ok (a, s')) : m (g s) = .ok (a, g s') := by
  rw [h s, hm]
  rfl

theorem error (h : Commutes g m) (hm : m s = .error e) : m (g s) = .error e := by
  rw [h s, hm]
  rfl

protected theorem pure (a : α) : Commutes g (pure a : StateT σ (Except ε) α) := fun _ => rfl

protected theorem bind
    (hm : Commutes g m) (hf : ∀ a, Commutes g (f a)) : Commutes g (m >>= f) := by
  intro s
  cases h : m s with
  | error e => rw [bind_of_error h, bind_of_error (hm.error h)]; rfl
  | ok p => rw [bind_of_ok h, bind_of_ok (hm.ok h), hf p.1]

/-- Reading the state: what is done with it must not depend on the update. -/
theorem get_bind {f : σ → StateT σ (Except ε) β} (hg : ∀ s, f (g s) = f s)
    (hf : ∀ s, Commutes g (f s)) : Commutes g (get >>= f) := by
  intro s
  rw [bind_of_ok (get_run s), bind_of_ok (get_run (g s)), hg, hf]

protected theorem modify {f : σ → σ} (h : ∀ s, f (g s) = g (f s)) :
    Commutes g (modify f : StateT σ (Except ε) PUnit) :=
  fun s => congrArg (fun t => Except.ok (PUnit.unit, t)) (h s)

protected theorem ite [Decidable c] (hm : Commutes g m)
    (hn : Commutes g n) : Commutes g (if c then m else n) := by
  split
  · exact hm
  · exact hn

protected theorem forM {f : γ → StateT σ (Except ε) PUnit}
    (h : ∀ x, Commutes g (f x)) : Commutes g (l.forM f) := by
  induction l with
  | nil => exact .pure _
  | cons x l ih => exact (h x).bind fun _ => ih

end Commutes

end Hoare

import Valgrind.Helgrind.Clock
import Valgrind.Helgrind.MSM
import Valgrind.Foundations.VectorClocks

/-!
# Helgrind/Libhb — `helgrind/libhb_core.c`: threads and synchronisation objects

Each thread has a read clock and a write clock, and so has each synchronisation object that was
ever sent to.  A send copies the clocks of the thread into the object, or joins them to what is
there, and then moves the thread along one step; a receive joins the clocks of the object to those
of the thread, and leaves out the write clock if it is weak.  A new thread starts with the clocks of
its parent, each one step ahead.

`clocks_characterise`: as long as no counter or number of threads reaches its limit, the clocks of
an access and of an event of another thread are ordered iff the events are.
-/

namespace Valgrind.Helgrind

open VectorClocks List Function Event ThrClocks Clock Set Except

/-- `struct _SO`; no clock is `VtsID_INVALID`. -/
structure SO where
  viR : Option Clock
  viW : Option Clock
deriving DecidableEq

/-- The threads and the synchronisation objects. -/
structure Libhb where
  /-- `thrid_counter`, which starts at 1024. -/
  thridCounter : { n : ℕ // 1024 ≤ n }
  /-- The clocks of the threads that there are. -/
  thr : ThrID → Option (ThrClocks Clock)
  so : ℕ → SO

namespace Libhb

/-- The clocks that a `Thr*` leads to. -/
def clocksOf (s : Libhb) (t : ThrID) : Except Abort (ThrClocks Clock) :=
  match s.thr t with
  | some c => .ok c
  | none => .error .nullPointer

/-- Store the clocks of a thread. -/
def setThr (s : Libhb) (t : ThrID) (c : ThrClocks Clock) : Libhb :=
  { s with thr := Function.update s.thr t (some c) }

/-- `Thr__new`: the identifier of the new thread. -/
def thrNew (s : Libhb) : Except Abort (ThrID × Libhb) :=
  if h : s.thridCounter.val ≥ thrIDMaxValid then scalartsLimitationsFail true
  else .ok (⟨s.thridCounter, s.thridCounter.2, not_le.mp h⟩,
    { s with thridCounter := ⟨s.thridCounter + 1, s.thridCounter.2.trans (Nat.le_succ _)⟩ })

/-- Move both clocks of a thread along. -/
def tickBoth (c : ThrClocks Clock) (t : ThrID) : Except Abort (ThrClocks Clock) := do
  let viR ← c.viR.tick t
  let viW ← c.viW.tick t
  return ⟨viR, viW⟩

/-- `libhb_init`: the root thread. -/
def init : Except Abort (ThrID × Libhb) := do
  let (root, s) ← thrNew ⟨⟨1024, le_rfl⟩, fun _ => none, fun _ => ⟨none, none⟩⟩
  let vi ← Clock.mkSingleton root 1
  return (root, s.setThr root ⟨vi, vi⟩)

/-- `libhb_create`. -/
def create (s : Libhb) (parent : ThrID) : Except Abort (ThrID × Libhb) := do
  let p ← s.clocksOf parent
  let (child, s) ← s.thrNew
  let c ← tickBoth p child
  vgAssert (c.viR.indexAt child = 1)
  vgAssert (c.viW.indexAt child = 1)
  let s := s.setThr child c
  let p ← tickBoth p parent
  return (child, s.setThr parent p)

/-- The clocks of an object after a send. -/
def soPost (o : SO) (c : ThrClocks Clock) (strongSend : Bool) : Except Abort SO :=
  match o.viR, o.viW with
  | none, none => .ok ⟨some c.viR, some c.viW⟩
  | some viR, some viW =>
    if strongSend then .ok ⟨some c.viR, some c.viW⟩
    else do
      let viR ← viR.join2 c.viR
      let viW ← viW.join2 c.viW
      return ⟨some viR, some viW⟩
  | _, _ => .error .assertion

/-- `libhb_so_send`. -/
def soSend (s : Libhb) (thr : ThrID) (so : ℕ) (strongSend : Bool) : Except Abort Libhb := do
  let c ← s.clocksOf thr
  vgAssert (← c.viW.cmpLEQ c.viR)
  let o ← soPost (s.so so) c strongSend
  let c ← tickBoth c thr
  return { s with so := Function.update s.so so o }.setThr thr c

/-- The clocks of a thread after a receive. -/
def soTake (o : SO) (c : ThrClocks Clock) (strongRecv : Bool) : Except Abort (ThrClocks Clock) :=
  match o.viR, o.viW with
  | none, none => .ok c
  | some soR, some soW => do
    let viR ← c.viR.join2 soR
    if strongRecv then
      let viW ← c.viW.join2 soW
      return ⟨viR, viW⟩
    else return ⟨viR, c.viW⟩
  | _, _ => .error .assertion

/-- `libhb_so_recv`. -/
def soRecv (s : Libhb) (thr : ThrID) (so : ℕ) (strongRecv : Bool) : Except Abort Libhb := do
  let c ← s.clocksOf thr
  let c ← soTake (s.so so) c strongRecv
  return s.setThr thr c

end Libhb

/-- What a thread does. -/
inductive HbOp where
  | create (parent : ThrID)
  | send (thr : ThrID) (so : ℕ) (strong : Bool)
  | recv (thr : ThrID) (so : ℕ) (strong : Bool)
  | access (thr : ThrID)
deriving DecidableEq, Repr

/-- The thread that acts. -/
def HbOp.thr : HbOp → ThrID
  | .create t | .send t _ _ | .recv t _ _ | .access t => t

/-- The operation that led to an event. -/
def HbOp.ofEvent : Event ThrID ℕ → HbOp
  | .create t _ => .create t
  | .send t o strong => .send t o strong
  | .recv t o strong => .recv t o strong
  | .access t => .access t

theorem HbOp.thr_ofEvent (ev : Event ThrID ℕ) : (HbOp.ofEvent ev).thr = ev.thr := by
  cases ev <;> rfl

/-- Carry out an operation.  The result is the event, where a creation names the child, and the
clocks of the acting thread after it. -/
def Libhb.step (s : Libhb) (op : HbOp) :
    Except Abort ((Event ThrID ℕ × ThrClocks Clock) × Libhb) := do
  let (ev, s) ← perform s op
  return ((ev, ← s.clocksOf op.thr), s)
where
  /-- The operation alone. -/
  perform (s : Libhb) : HbOp → Except Abort (Event ThrID ℕ × Libhb)
    | .create parent => do
      let (child, s) ← s.create parent
      return (.create parent child, s)
    | .send thr so strong => do return (.send thr so strong, ← s.soSend thr so strong)
    | .recv thr so strong => do return (.recv thr so strong, ← s.soRecv thr so strong)
    | .access thr => do
      let _ ← s.clocksOf thr
      return (.access thr, s)

/-! ## The clocks of the library are the abstract ones -/

/-- The clock for one of the two orders. -/
def ThrClocks.pick (c : ThrClocks Clock) (all : Bool) : Clock := if all then c.viR else c.viW

/-- The clock for one of the two orders. -/
def SO.pick (o : SO) (all : Bool) : Option Clock := if all then o.viR else o.viW

namespace Libhb

/-- The components of all clocks. -/
def clocks (s : Libhb) : Clocks ThrID ℕ
  | all, .thread t, x => (s.thr t).elim 0 fun c => (c.pick all).indexAt x
  | all, .obj o, x => ((s.so o).pick all).elim 0 fun c => c.indexAt x

/-- The threads that there are. -/
def alive (s : Libhb) : Set ThrID := {t | ∃ c, s.thr t = some c}

/-- The threads have the identifiers below the counter, and an object has both clocks or none. -/
structure Ok (s : Libhb) : Prop where
  alive_iff : ∀ t, t ∈ s.alive ↔ t.val < s.thridCounter
  both : ∀ o, (s.so o).viR = none ∧ (s.so o).viW = none
    ∨ ∃ soR soW, (s.so o).viR = some soR ∧ (s.so o).viW = some soW

/-- The process ends at a limit, or the result is as given. -/
def Within {α : Type} (P : α → Prop) (x : Except Abort α) : Prop :=
  (∃ b, x = scalartsLimitationsFail b) ∨ ∃ y, x = .ok y ∧ P y

theorem Within.bind {α β : Type} {P : α → Prop} {Q : β → Prop} {x : Except Abort α}
    {f : α → Except Abort β} (h : Within P x) (hf : ∀ y, P y → Within Q (f y)) :
    Within Q (x >>= f) := by
  obtain ⟨b, rfl⟩ | ⟨y, rfl, hy⟩ := h
  · exact .inl ⟨b, rfl⟩
  · exact hf y hy

theorem within_join2 (a b : Clock) : Within (· = a ⊔ b) (a.join2 b) :=
  (join2_cases a b).imp (fun h => ⟨true, h⟩) fun h => ⟨_, h, rfl⟩

section Refines

variable {s : Libhb} {t : ThrID} {c : ThrClocks Clock} {all : Bool}

theorem clocksOf_eq (h : s.thr t = some c) : s.clocksOf t = .ok c := by
  rw [clocksOf, h]

@[simp] theorem clocks_setThr_self (x : ThrID) :
    (s.setThr t c).clocks all (.thread t) x = (c.pick all).indexAt x := by
  simp [clocks, setThr]

@[simp] theorem clocks_setThr_obj (o : ℕ) (x : ThrID) :
    (s.setThr t c).clocks all (.obj o) x = s.clocks all (.obj o) x := rfl

theorem clocks_setThr_of_ne {h : Holder ThrID ℕ} (hne : h ≠ .thread t) (x : ThrID) :
    (s.setThr t c).clocks all h x = s.clocks all h x := by
  cases h with
  | obj o => rfl
  | thread u =>
    have hu : u ≠ t := fun h => hne (congrArg _ h)
    simp [clocks, setThr, update_of_ne hu]

theorem clocks_of_thr (h : s.thr t = some c) (x : ThrID) :
    s.clocks all (.thread t) x = (c.pick all).indexAt x := by
  rw [clocks, h]
  rfl

theorem alive_setThr : (s.setThr t c).alive = s.alive ∪ {t} := by
  ext u
  by_cases hu : u = t
  · subst hu
    exact iff_of_true ⟨c, update_self ..⟩ (.inr rfl)
  · simp [alive, setThr, hu]

theorem alive_setThr_of_thr {c' : ThrClocks Clock} (h : s.thr t = some c') :
    (s.setThr t c).alive = s.alive := by
  rw [alive_setThr]
  exact union_eq_left.mpr (singleton_subset_iff.mpr ⟨c', h⟩)

/-- Both clocks move along. -/
theorem within_tickBoth (c : ThrClocks Clock) (t : ThrID) : Within (fun c' => ∀ all x,
    (c'.pick all).indexAt x = (c.pick all).indexAt x + if x = t then 1 else 0) (tickBoth c t) := by
  have htick : ∀ a : Clock, Within (fun a' => ∀ x,
      a'.indexAt x = a.indexAt x + if x = t then 1 else 0) (a.tick t) := fun a =>
    (tick_cases a t).imp_left fun h => ⟨false, h⟩
  refine (htick c.viR).bind fun viR hR => (htick c.viW).bind fun viW hW =>
    .inr ⟨⟨viR, viW⟩, rfl, fun all x => ?_⟩
  cases all with
  | false => exact hW x
  | true => exact hR x

theorem clocks_obj_of_none {o : ℕ} (hR : (s.so o).viR = none) (hW : (s.so o).viW = none)
    (x : ThrID) : s.clocks all (.obj o) x = 0 := by
  rw [clocks, SO.pick]
  cases all with
  | false => rw [if_neg (by decide), hW]; rfl
  | true => rw [if_pos rfl, hR]; rfl

theorem clocks_obj_of_some {o : ℕ} (soR soW : Clock) (hR : (s.so o).viR = some soR)
    (hW : (s.so o).viW = some soW) (x : ThrID) :
    s.clocks all (.obj o) x = (if all then soR else soW).indexAt x := by
  rw [clocks, SO.pick]
  cases all with
  | false => rw [if_neg (by decide), if_neg (by decide), hW]; rfl
  | true => rw [if_pos rfl, if_pos rfl, hR]; rfl

/-- The state after an event is the one that the abstract clocks lead to. -/
structure Refined (s : Libhb) (ev : Event ThrID ℕ) (s' : Libhb) : Prop where
  possible : Possible s.alive ev
  ok : s'.Ok
  alive : s'.alive = aliveAfter s.alive ev
  clocks : s'.clocks = advance s.clocks ev

theorem aliveAfter_of_not_create (ev : Event ThrID ℕ) (hev : ∀ p c, ev ≠ .create p c) :
    aliveAfter s.alive ev = s.alive := by
  refine union_eq_left.mpr fun c hc => ?_
  obtain ⟨p, hp⟩ := hc
  exact absurd hp (hev p c)

section

variable (hok : s.Ok)
include hok

theorem access_refined (ht : t ∈ s.alive) : Refined s (.access t) s where
  possible := ⟨ht, fun _ _ h => nomatch h⟩
  ok := hok
  alive := (aliveAfter_of_not_create (.access t) fun _ _ h => nomatch h).symm
  clocks := by
    refine eq_advance (fun all h x hgives => ?_) fun _ _ _ _ => rfl
    cases h with
    | obj o => exact absurd hgives nofun
    | thread u =>
      rcases hgives with rfl | ⟨p, hp⟩
      · simp [advance, Event.Gives, Event.Replaces, Event.Ticks, now, receives]
      · cases hp

/-- The child is one step ahead of the parent in its own component, and the parent moves along. -/
theorem create_refined (hthr : s.thr t = some c)
    (habsent : ∀ u ∉ s.alive, ∀ all, s.clocks all (.thread t) u = 0) :
    Within (fun p => Refined s (.create t p.1) p.2) (s.create t) := by
  rw [create, clocksOf_eq hthr, ok_bind, thrNew]
  by_cases hlim : s.thridCounter.val ≥ thrIDMaxValid
  · exact .inl ⟨true, by rw [dif_pos hlim]; rfl⟩
  rw [dif_neg hlim, ok_bind]
  dsimp only
  obtain ⟨child, hchild⟩ : ∃ child : ThrID, child
    = ⟨s.thridCounter, s.thridCounter.2, not_le.mp hlim⟩ := ⟨_, rfl⟩
  rw [← hchild]
  have hval : child.val = s.thridCounter := congrArg Subtype.val hchild
  have hnew : child ∉ s.alive := fun h => absurd ((hok.alive_iff child).mp h) (hval ▸ lt_irrefl _)
  have hne : t ≠ child := fun h => hnew (h ▸ ⟨c, hthr⟩)
  refine (within_tickBoth c child).bind fun cc hindexc => ?_
  have hone : ∀ all, (cc.pick all).indexAt child = 1 := fun all => by
    have hzero := habsent child hnew all
    rw [clocks_of_thr hthr] at hzero
    rw [hindexc, hzero, if_pos rfl]
  have honeR : cc.viR.indexAt child = 1 := hone true
  have honeW : cc.viW.indexAt child = 1 := hone false
  rw [vgAssert_bind honeR, vgAssert_bind honeW]
  refine (within_tickBoth c t).bind fun cp hindexp => ?_
  have halive : ∀ i, (setThr (setThr { s with thridCounter := i } child cc) t cp).alive
      = s.alive ∪ {child} := fun i =>
    (alive_setThr_of_thr ((update_of_ne hne ..).trans hthr)).trans alive_setThr
  refine .inr ⟨_, rfl, ⟨⟨c, hthr⟩, fun p u h => ?_⟩, ⟨fun u => ?_, hok.both⟩, ?_, ?_⟩
  · obtain ⟨rfl, rfl⟩ := create.inj h
    exact hnew
  · rw [halive]
    change u ∈ s.alive ∨ u = child ↔ u.val < s.thridCounter + 1
    rw [hok.alive_iff u, Subtype.ext_iff, hval]
    exact Nat.lt_succ_iff_lt_or_eq.symm
  · rw [halive]
    exact congrArg (s.alive ∪ ·) (ext fun u => by simp [eq_comm])
  · have hnone : s.thr child = none := by
      cases h : s.thr child with
      | none => rfl
      | some d => exact absurd ⟨d, h⟩ hnew
    refine eq_advance (fun all h x hgives => ?_) fun all h x hgives => ?_
    · cases h with
      | obj o => exact absurd hgives nofun
      | thread u =>
        rcases hgives with rfl | ⟨p, hp⟩
        · rw [show (Event.create t child : Event ThrID ℕ).thr = t from rfl, clocks_setThr_self,
            hindexp]
          simp [advance, Event.Gives, Event.Replaces, Event.Ticks, now, Event.receives, Event.thr,
            clocks_of_thr hthr, eq_comm]
        · obtain ⟨rfl, rfl⟩ := Event.create.inj hp
          rw [clocks_setThr_of_ne fun h => hne (Holder.thread.inj h).symm, clocks_setThr_self,
            hindexc]
          have hzero : s.clocks all (.thread child) x = 0 := by rw [clocks, hnone]; rfl
          simp [advance, Event.Gives, Event.Replaces, Event.Ticks, now, Event.receives, Event.thr,
            clocks_of_thr hthr, hzero, eq_comm]
    · have ht : h ≠ .thread t := fun h' => hgives (h' ▸ .inl rfl)
      have hc : h ≠ .thread child := fun h' => hgives (h' ▸ .inr ⟨t, rfl⟩)
      rw [clocks_setThr_of_ne ht, clocks_setThr_of_ne hc]
      rfl

/-- An object holds the clocks of the sender, joined to what it had after a weak send. -/
theorem within_soPost (o : ℕ) (c : ThrClocks Clock) (strong : Bool) :
    Within (fun so => ∃ viR viW, so = ⟨some viR, some viW⟩
      ∧ ∀ all x, (if all then viR else viW).indexAt x
        = max (if strong then 0 else s.clocks all (.obj o) x) ((c.pick all).indexAt x))
      (soPost (s.so o) c strong) := by
  have hpick : ∀ all x, (if all = true then c.viR else c.viW).indexAt x = (c.pick all).indexAt x :=
    fun _ _ => rfl
  rcases hok.both o with ⟨hR, hW⟩ | ⟨soR, soW, hR, hW⟩
  · refine .inr ⟨_, by rw [soPost, hR, hW], c.viR, c.viW, rfl, fun all x => ?_⟩
    rw [clocks_obj_of_none hR hW, ite_self, zero_max, hpick]
  · simp only [soPost, hR, hW]
    cases strong with
    | true =>
      refine .inr ⟨_, rfl, c.viR, c.viW, rfl, fun all x => ?_⟩
      rw [if_pos rfl, zero_max, hpick]
    | false =>
      refine (within_join2 soR c.viR).bind ?_
      rintro _ rfl
      refine (within_join2 soW c.viW).bind ?_
      rintro _ rfl
      refine .inr ⟨_, rfl, _, _, rfl, fun all x => ?_⟩
      rw [clocks_obj_of_some soR soW hR hW, ← hpick]
      cases all <;> simp

/-- The sender moves along, and the object has its clocks. -/
theorem soSend_refined (hthr : s.thr t = some c) (hle : c.viW ≤ c.viR) (o : ℕ) (strong : Bool) :
    Within (Refined s (.send t o strong)) (s.soSend t o strong) := by
  rw [soSend, clocksOf_eq hthr, ok_bind, cmpLEQ_eq, ok_bind,
    vgAssert_bind (decide_eq_true hle)]
  refine (within_soPost hok o c strong).bind ?_
  rintro _ ⟨viR, viW, rfl, hindexo⟩
  refine (within_tickBoth c t).bind fun c' hindex => ?_
  have halive : (setThr { s with so := Function.update s.so o ⟨some viR, some viW⟩ } t c').alive
      = s.alive := alive_setThr_of_thr (show _ = some c from hthr)
  refine .inr ⟨_, rfl, ⟨⟨c, hthr⟩, fun _ _ h => nomatch h⟩, ⟨fun u => ?_, fun q => ?_⟩, ?_, ?_⟩
  · rw [halive]
    exact hok.alive_iff u
  · by_cases hq : q = o
    · subst hq
      exact .inr ⟨viR, viW, by simp [setThr], by simp [setThr]⟩
    · simpa [setThr, update_of_ne hq] using hok.both q
  · rw [halive, aliveAfter_of_not_create (.send t o strong) fun _ _ h => nomatch h]
  · refine eq_advance (fun all h x hgives => ?_) fun all h x hgives => ?_
    · cases h with
      | thread u =>
        rcases hgives with rfl | ⟨p, hp⟩
        · rw [show (Event.send t o strong : Event ThrID ℕ).thr = t from rfl, clocks_setThr_self,
            hindex]
          simp [advance, Event.Gives, Event.Replaces, Event.Ticks, now, Event.receives, Event.thr,
            clocks_of_thr hthr, eq_comm]
        · cases hp
      | obj q =>
        obtain ⟨u, st, hsend⟩ := hgives
        obtain ⟨rfl, rfl, rfl⟩ := send.inj hsend
        rw [clocks_setThr_obj, clocks_obj_of_some viR viW (by simp) (by simp), hindexo]
        cases strong <;> simp [advance, Event.Gives, Event.Replaces, now, receives,
            Event.thr, clocks_of_thr hthr]
    · have ht : h ≠ .thread t := fun h' => hgives (h' ▸ .inl rfl)
      rw [clocks_setThr_of_ne ht]
      cases h with
      | thread u => rfl
      | obj q =>
        have hq : q ≠ o := fun h' => hgives ⟨t, strong, by rw [h']⟩
        simp [clocks, SO.pick, update_of_ne hq]

/-- What a thread takes from an object. -/
theorem within_soTake (o : ℕ) (c : ThrClocks Clock) (strong : Bool) :
    Within (fun c' => ∀ all x, (c'.pick all).indexAt x = max ((c.pick all).indexAt x)
      (if all = true ∨ strong = true then s.clocks all (.obj o) x else 0))
      (soTake (s.so o) c strong) := by
  rcases hok.both o with ⟨hR, hW⟩ | ⟨soR, soW, hR, hW⟩
  · refine .inr ⟨c, by rw [soTake, hR, hW], fun all x => ?_⟩
    rw [clocks_obj_of_none hR hW, ite_self, max_zero]
  · simp only [soTake, hR, hW, clocks_obj_of_some soR soW hR hW]
    refine (within_join2 c.viR soR).bind ?_
    rintro _ rfl
    cases strong with
    | false =>
      refine .inr ⟨_, rfl, fun all x => ?_⟩
      cases all <;> simp [pick]
    | true =>
      refine (within_join2 c.viW soW).bind ?_
      rintro _ rfl
      refine .inr ⟨_, rfl, fun all x => ?_⟩
      cases all <;> simp [pick]

/-- The receiver has the clocks of the object too. -/
theorem soRecv_refined (hthr : s.thr t = some c) (o : ℕ) (strong : Bool) :
    Within (Refined s (.recv t o strong)) (s.soRecv t o strong) := by
  rw [soRecv, clocksOf_eq hthr, ok_bind]
  refine (within_soTake hok o c strong).bind fun c' hindex => ?_
  have halive : (s.setThr t c').alive = s.alive := alive_setThr_of_thr hthr
  refine .inr ⟨_, rfl, ⟨⟨c, hthr⟩, fun _ _ h => nomatch h⟩, ⟨fun u => ?_, hok.both⟩, ?_, ?_⟩
  · rw [halive]
    exact hok.alive_iff u
  · rw [halive, aliveAfter_of_not_create (.recv t o strong) fun _ _ h => nomatch h]
  · refine eq_advance (fun all h x hgives => ?_) fun all h x hgives => ?_
    · cases h with
      | obj q => exact absurd hgives nofun
      | thread u =>
        rcases hgives with rfl | ⟨p, hp⟩
        · rw [show (Event.recv t o strong : Event ThrID ℕ).thr = t from rfl, clocks_setThr_self,
            hindex]
          by_cases hcounts : all = true ∨ strong = true <;>
            simp [advance, Event.Gives, Event.Replaces, Event.Ticks, now, Event.receives, Event.thr,
              clocks_of_thr hthr, hcounts]
        · cases hp
    · have ht : h ≠ .thread t := fun h' => hgives (h' ▸ .inl rfl)
      exact clocks_setThr_of_ne ht x

/-- **One operation does to the clocks what the event says**, or the process ends at a limit. -/
theorem step_refined (hle : ∀ h x, s.clocks false h x ≤ s.clocks true h x)
    (habsent : ∀ u ∉ s.alive, ∀ all h, s.clocks all h u = 0) {op : HbOp} (hop : op.thr ∈ s.alive) :
    Within (fun p => Refined s p.1.1 p.2 ∧ HbOp.ofEvent p.1.1 = op ∧ p.2.thr op.thr = some p.1.2)
      (s.step op) := by
  obtain ⟨c, hthr⟩ := hop
  have hcle : c.viW ≤ c.viR := fun x => by
    have := hle (.thread op.thr) x
    rwa [clocks_of_thr hthr, clocks_of_thr hthr] at this
  have hperform : Within (fun p => Refined s p.1 p.2 ∧ HbOp.ofEvent p.1 = op) (step.perform s op) := by
    cases op with
    | create t =>
      exact (create_refined hok (t := t) hthr fun u hu all => habsent u hu all _).bind
        fun _ href => .inr ⟨_, rfl, href, rfl⟩
    | send t o strong =>
      exact (soSend_refined hok (t := t) hthr hcle o strong).bind
        fun _ href => .inr ⟨_, rfl, href, rfl⟩
    | recv t o strong =>
      exact (soRecv_refined hok (t := t) hthr o strong).bind
        fun _ href => .inr ⟨_, rfl, href, rfl⟩
    | access t =>
      have hthr : s.thr t = some c := hthr
      exact .inr ⟨(_, s), by rw [step.perform, clocksOf_eq hthr]; rfl,
        access_refined hok ⟨c, hthr⟩, rfl⟩
  refine hperform.bind fun ⟨ev, s'⟩ ⟨href, hev⟩ => ?_
  obtain ⟨c', hc'⟩ : op.thr ∈ s'.alive := by
    rw [href.alive]
    exact .inl ⟨c, hthr⟩
  exact .inr ⟨((ev, c'), s'), by dsimp only; rw [clocksOf_eq hc']; rfl, href, hev, hc'⟩

end

end Refines

end Libhb

/-! ## Runs -/

namespace Libhb

/-- The components of the clocks that an operation returned. -/
def logOf (r : Event ThrID ℕ × ThrClocks Clock) : Bool → ThrID → ℕ := fun all =>
  (r.2.pick all).indexAt

/-- The library after some operations. -/
structure History (ops : List HbOp) (rs : List (Event ThrID ℕ × ThrClocks Clock)) (s : Libhb) :
    Prop where
  ok : s.Ok
  inv : Inv (rs.map Prod.fst) (rs.map logOf) s.alive s.clocks
  characterises : Characterises (rs.map Prod.fst) (rs.map logOf)
  ops_eq : rs.map (fun r => HbOp.ofEvent r.1) = ops

/-- One operation more. -/
theorem History.step {ops : List HbOp} {rs : List (Event ThrID ℕ × ThrClocks Clock)} {s : Libhb}
    (hh : History ops rs s) {op : HbOp} (hop : op.thr ∈ s.alive) :
    (∃ b, s.step op = scalartsLimitationsFail b)
      ∨ ∃ r s', s.step op = .ok (r, s') ∧ History (ops ++ [op]) (rs ++ [r]) s' := by
  rcases step_refined hh.ok hh.inv.le (fun u hu all h => (hh.inv.absent u hu all h u).1) hop with
    hfail | ⟨⟨⟨ev, c⟩, s'⟩, hstep, href, rfl, hc⟩
  · exact .inl hfail
  dsimp only at href hc
  rw [HbOp.thr_ofEvent] at hc
  have hlog : logOf (ev, c) = fun all => advance s.clocks ev all (.thread ev.thr) := by
    funext all x
    rw [← href.clocks, clocks_of_thr hc]
    rfl
  refine .inr ⟨(ev, c), s', hstep, href.ok, ?_, ?_, ?_⟩
  · rw [map_append, map_append, map_singleton, map_singleton, hlog,
      href.alive, href.clocks]
    exact hh.inv.advance href.possible
  · rw [map_append, map_append, map_singleton, map_singleton, hlog]
    exact hh.characterises.advance hh.inv href.possible
  · rw [map_append, hh.ops_eq]
    rfl

end Libhb

end Valgrind.Helgrind

import Mathlib.Tactic

/-!
# Foundations/VectorClocks — vector clocks of two strengths, and the order they characterise

Threads create threads, and send and receive messages through objects.  A strong send replaces the
messages that an object holds, a weak one adds to them; what is received is counted for both orders
if the receive is strong, and for the wider one only if it is weak.

`Before evs true` and `Before evs false` are the two orders of the events, generated by program
order, creation and messages.  `Clocks` are the clocks of the threads and objects for both of them,
and `advance` is what an event does to the clocks.  Then, for an access and an event of another
thread, the clocks decide the order: `Characterises.before_iff`.  The invariant rests on what is
**known** to a thread or object: the events that come before one whose clock it has taken over.
-/

namespace VectorClocks

open List Relation Nat Option

variable {T O : Type}

/-- What a thread does. -/
inductive Event (T O : Type) where
  | create (t child : T)
  | send (t : T) (o : O) (strong : Bool)
  | recv (t : T) (o : O) (strong : Bool)
  | access (t : T)
deriving DecidableEq, Repr

namespace Event

/-- The thread that acts. -/
def thr : Event T O → T
  | .create t _ | .send t _ _ | .recv t _ _ | .access t => t

/-- The object that is received from, if the receive counts. -/
def receives (all : Bool) : Event T O → Option O
  | .recv _ o strong => if all = true ∨ strong = true then some o else none
  | _ => none

end Event

/-- **The generators of the order.** -/
inductive Edge (evs : List (Event T O)) (all : Bool) (i j : ℕ) : Prop
  /-- Program order. -/
  | program {a b : Event T O} (hij : i < j) (ha : evs[i]? = some a) (hb : evs[j]? = some b)
      (hthr : a.thr = b.thr)
  /-- A thread starts after it is created. -/
  | creation {t : T} {b : Event T O} (hij : i < j) (ha : evs[i]? = some (.create t b.thr))
      (hb : evs[j]? = some b)
  /-- A message is received while the object still holds it. -/
  | message {t : T} {o : O} {strong : Bool} {b : Event T O} (hij : i < j)
      (ha : evs[i]? = some (.send t o strong)) (hb : evs[j]? = some b)
      (hrecv : b.receives all = some o)
      (held : ∀ k t', i < k → k < j → evs[k]? ≠ some (.send t' o true))

/-- Happens-before. -/
def Before (evs : List (Event T O)) (all : Bool) : ℕ → ℕ → Prop :=
  Relation.TransGen (Edge evs all)

/-- Who has clocks. -/
inductive Holder (T O : Type) where
  | thread (t : T)
  | obj (o : O)

/-- The clocks for both orders. -/
abbrev Clocks (T O : Type) := Bool → Holder T O → T → ℕ

/-- The clock of the acting thread at an event, after it has received. -/
def now (v : Clocks T O) (all : Bool) (ev : Event T O) (x : T) : ℕ :=
  match ev.receives all with
  | some o => max (v all (.thread ev.thr) x) (v all (.obj o) x)
  | none => v all (.thread ev.thr) x

/-! ## What is known -/

/-- An event makes a thread or object take over the clock of the acting thread… -/
def Event.Gives (ev : Event T O) : Holder T O → Prop
  | .thread t => ev.thr = t ∨ ∃ p, ev = .create p t
  | .obj o => ∃ t strong, ev = .send t o strong

/-- …or drop what it had. -/
def Event.Replaces (ev : Event T O) : Holder T O → Prop
  | .thread _ => False
  | .obj o => ∃ t, ev = .send t o true

/-- The events after which a thread is in a new segment. -/
def Event.Ticks : Event T O → Prop
  | .create _ _ | .send _ _ _ => True
  | .recv _ _ _ | .access _ => False

open Classical in
/-- **What an event does to the clocks**: those who take over the clock of the acting thread join it
to what they have, or have only that; and a thread whose clock was taken over moves on, as does one
that is created. -/
noncomputable def advance (v : Clocks T O) (ev : Event T O) : Clocks T O := fun all h x =>
  let kept := if ev.Replaces h then 0 else v all h x
  if ev.Gives h then max kept (now v all ev x) + if ev.Ticks ∧ h = .thread x then 1 else 0
  else kept

/-- The clock of the event is still part of what the thread or object has. -/
def Feeds (evs : List (Event T O)) (i : ℕ) (h : Holder T O) : Prop :=
  ∃ a, evs[i]? = some a ∧ a.Gives h ∧ ∀ k c, i < k → evs[k]? = some c → ¬ c.Replaces h

/-- The events that a thread or object knows of. -/
def Known (evs : List (Event T O)) (all : Bool) (h : Holder T O) (e : ℕ) : Prop :=
  ∃ j, Feeds evs j h ∧ Relation.ReflTransGen (Edge evs all) e j

section Known

variable {evs : List (Event T O)} {ev : Event T O} {all : Bool} {e i j : ℕ} {h : Holder T O}

theorem Edge.lt (h : Edge evs all i j) : i < j := by
  cases h with
  | program hij | creation hij | message hij => exact hij

theorem Before.lt (h : Before evs all i j) : i < j := by
  induction h with
  | single h => exact h.lt
  | tail _ h ih => exact ih.trans h.lt

theorem lt_length {α : Type} {l : List α} {y : α} (h : l[i]? = some y) : i < l.length :=
  (List.getElem?_eq_some_iff.mp h).1

theorem Feeds.lt_length (hf : Feeds evs i h) : i < evs.length := by
  obtain ⟨a, ha, -⟩ := hf
  exact VectorClocks.lt_length ha

/-- The order of the events up to `j` does not depend on those after it. -/
theorem Edge.congr {evs' : List (Event T O)} (hget : ∀ k ≤ j, evs[k]? = evs'[k]?)
    (h : Edge evs all i j) : Edge evs' all i j := by
  rcases h with ⟨hij, ha, hb, hthr⟩ | ⟨hij, ha, hb⟩ | ⟨hij, ha, hb, hrecv, held⟩
  · exact .program hij (hget i hij.le ▸ ha) (hget j le_rfl ▸ hb) hthr
  · exact .creation hij (hget i hij.le ▸ ha) (hget j le_rfl ▸ hb)
  · exact .message hij (hget i hij.le ▸ ha) (hget j le_rfl ▸ hb) hrecv
      fun k t' h₁ h₂ => hget k h₂.le ▸ held k t' h₁ h₂

theorem Before.congr {evs' : List (Event T O)} (hget : ∀ k ≤ j, evs[k]? = evs'[k]?)
    (h : Before evs all i j) : Before evs' all i j := by
  induction h with
  | single h => exact .single (h.congr hget)
  | tail _ h ih => exact (ih fun k hk => hget k (hk.trans h.lt.le)).tail (h.congr hget)

/-- Later events do not change the order of earlier ones. -/
theorem before_append (hj : j < evs.length) :
    Before (evs ++ [ev]) all i j ↔ Before evs all i j := by
  have hget : ∀ k ≤ j, (evs ++ [ev])[k]? = evs[k]? := fun k hk =>
    getElem?_append_left (hk.trans_lt hj)
  exact ⟨(·.congr hget), (·.congr fun k hk => (hget k hk).symm)⟩

theorem reaches_append (hj : j < evs.length) : Relation.ReflTransGen (Edge (evs ++ [ev]) all) i j
      ↔ Relation.ReflTransGen (Edge evs all) i j := by
  rw [reflTransGen_iff_eq_or_transGen, reflTransGen_iff_eq_or_transGen]
  exact or_congr_right (before_append hj)

/-- The edges into the last event come from what the acting thread and the object have. -/
theorem edge_last : Edge (evs ++ [ev]) all i evs.length ↔
    Feeds evs i (.thread ev.thr) ∨ ∃ o, ev.receives all = some o ∧ Feeds evs i (.obj o) := by
  have hlast : (evs ++ [ev])[evs.length]? = some ev := by simp
  constructor
  · rintro (⟨hij, ha, hb, hthr⟩ | ⟨hij, ha, hb⟩ | ⟨hij, ha, hb, hrecv, held⟩)
    all_goals
      obtain rfl := some.inj (hlast.symm.trans hb)
      rw [getElem?_append_left hij] at ha
    · exact .inl ⟨_, ha, .inl hthr, fun _ _ _ _ => id⟩
    · exact .inl ⟨_, ha, .inr ⟨_, rfl⟩, fun _ _ _ _ => id⟩
    · refine .inr ⟨_, hrecv, _, ha, ⟨_, _, rfl⟩, fun k c hk hc => ?_⟩
      rintro ⟨t', rfl⟩
      have hlt := lt_length hc
      exact held k t' hk hlt ((getElem?_append_left hlt).trans hc)
  · rintro (⟨a, ha, hgives, -⟩ | ⟨o, hrecv, a, ha, ⟨t, strong, rfl⟩, hrep⟩)
    · have hlt := lt_length ha
      rcases hgives with hthr | ⟨p, rfl⟩
      · exact .program hlt ((getElem?_append_left hlt).trans ha) hlast hthr
      · exact .creation hlt ((getElem?_append_left hlt).trans ha) hlast
    · have hlt := lt_length ha
      refine .message hlt ((getElem?_append_left hlt).trans ha) hlast hrecv fun k t' h₁ h₂ hk => ?_
      exact hrep k _ h₁ ((getElem?_append_left h₂).symm.trans hk) ⟨t', rfl⟩

/-- The events up to the last one. -/
def UpToNow (evs : List (Event T O)) (ev : Event T O) (all : Bool) (e : ℕ) : Prop :=
  e = evs.length ∨ Known evs all (.thread ev.thr) e
    ∨ ∃ o, ev.receives all = some o ∧ Known evs all (.obj o) e

theorem reaches_last : Relation.ReflTransGen (Edge (evs ++ [ev]) all) e evs.length
    ↔ UpToNow evs ev all e := by
  rw [Relation.ReflTransGen.cases_tail_iff, UpToNow, eq_comm]
  refine or_congr_right ⟨?_, ?_⟩
  · rintro ⟨j, hreach, hedge⟩
    rw [reaches_append hedge.lt] at hreach
    rcases edge_last.mp hedge with hf | ⟨o, hrecv, hf⟩
    · exact .inl ⟨j, hf, hreach⟩
    · exact .inr ⟨o, hrecv, j, hf, hreach⟩
  · rintro (⟨j, hf, hreach⟩ | ⟨o, hrecv, j, hf, hreach⟩)
    · exact ⟨j, (reaches_append hf.lt_length).mpr hreach, edge_last.mpr (.inl hf)⟩
    · exact ⟨j, (reaches_append hf.lt_length).mpr hreach, edge_last.mpr (.inr ⟨o, hrecv, hf⟩)⟩

/-- An entry of a list with one entry more. -/
theorem getElem?_snoc {α : Type} {l : List α} {y z : α} {k : ℕ} (h : (l ++ [y])[k]? = some z) :
    l[k]? = some z ∨ k = l.length ∧ z = y := by
  rcases lt_trichotomy k l.length with hlt | rfl | hgt
  · exact .inl (getElem?_append_left hlt ▸ h)
  · exact .inr ⟨rfl, by simpa using h.symm⟩
  · have := lt_length h
    simp only [length_append, length_singleton] at this
    omega

theorem feeds_append_lt (hi : i < evs.length) :
    Feeds (evs ++ [ev]) i h ↔ Feeds evs i h ∧ ¬ ev.Replaces h := by
  constructor
  · rintro ⟨a, ha, hgives, hrep⟩
    refine ⟨⟨a, getElem?_append_left hi ▸ ha, hgives, fun k c hk hc => ?_⟩,
      hrep evs.length ev hi (by simp)⟩
    exact hrep k c hk ((getElem?_append_left (lt_length hc)).trans hc)
  · rintro ⟨⟨a, ha, hgives, hrep⟩, hnew⟩
    refine ⟨a, (getElem?_append_left hi).trans ha, hgives, fun k c hk hc => ?_⟩
    rcases getElem?_snoc hc with hc | ⟨-, rfl⟩
    · exact hrep k c hk hc
    · exact hnew

theorem feeds_last : Feeds (evs ++ [ev]) evs.length h ↔ ev.Gives h := by
  constructor
  · rintro ⟨a, ha, hgives, -⟩
    obtain rfl : ev = a := by simpa using ha
    exact hgives
  · refine fun hgives => ⟨ev, by simp, hgives, fun k c hk hc => ?_⟩
    have := lt_length hc
    simp only [length_append, length_singleton] at this
    omega

/-- **How an event changes what is known.** -/
theorem known_append : Known (evs ++ [ev]) all h e ↔
    ¬ ev.Replaces h ∧ Known evs all h e ∨ ev.Gives h ∧ UpToNow evs ev all e := by
  constructor
  · rintro ⟨j, hf, hreach⟩
    have hlt := hf.lt_length
    rw [length_append, length_singleton] at hlt
    rcases (le_of_lt_succ hlt).lt_or_eq with hj | rfl
    · rw [feeds_append_lt hj] at hf
      exact .inl ⟨hf.2, j, hf.1, (reaches_append hj).mp hreach⟩
    · exact .inr ⟨feeds_last.mp hf, reaches_last.mp hreach⟩
  · rintro (⟨hrep, j, hf, hreach⟩ | ⟨hgives, hnow⟩)
    · have hj := hf.lt_length
      exact ⟨j, (feeds_append_lt hj).mpr ⟨hf, hrep⟩, (reaches_append hj).mpr hreach⟩
    · exact ⟨_, feeds_last.mpr hgives, reaches_last.mpr hnow⟩

/-- The acting thread knows what comes before the event. -/
theorem known_acting : Known (evs ++ [ev]) all (.thread ev.thr) e ↔ UpToNow evs ev all e := by
  rw [known_append]
  refine ⟨fun h => h.elim (fun h => .inr (.inl h.2)) And.right, fun h => .inr ⟨.inl rfl, h⟩⟩

theorem Known.lt_length (hk : Known evs all h e) : e < evs.length := by
  obtain ⟨j, hf, hreach⟩ := hk
  rcases reflTransGen_iff_eq_or_transGen.mp hreach with rfl | hreach
  · exact hf.lt_length
  · exact (Before.lt hreach).trans hf.lt_length

/-- A thread knows what it has done. -/
theorem known_own {a : Event T O} (ha : evs[e]? = some a) : Known evs all (.thread a.thr) e :=
  ⟨e, ⟨a, ha, .inl rfl, fun _ _ _ _ => id⟩, .refl⟩

end Known

/-! ## What the clocks say -/

section Clocks

variable {evs : List (Event T O)} {ev : Event T O} {all : Bool} {v : Clocks T O} {h : Holder T O}
  {t x : T} {i j : ℕ}

theorem le_now (v : Clocks T O) (all : Bool) (ev : Event T O) (x : T) :
    v all (.thread ev.thr) x ≤ now v all ev x := by
  rw [now]
  split
  · exact le_max_left _ _
  · exact le_rfl

/-- The clocks after an event, given for those who take over the clock of the acting thread. -/
theorem eq_advance {v' : Clocks T O}
    (hgives : ∀ all h x, ev.Gives h → v' all h x = advance v ev all h x)
    (hother : ∀ all h x, ¬ ev.Gives h → v' all h x = v all h x) : v' = advance v ev := by
  funext all h x
  by_cases hg : ev.Gives h
  · exact hgives all h x hg
  · have hrep : ¬ ev.Replaces h := by
      cases h with
      | thread t => exact id
      | obj o => exact fun ⟨t, heq⟩ => hg ⟨t, true, heq⟩
    rw [hother all h x hg]
    simp only [advance, if_neg hg, if_neg hrep]

/-- A clock bounds what its thread or object had, unless that is replaced… -/
theorem le_advance_of_not_replaces (hrep : ¬ ev.Replaces h) : v all h x ≤ advance v ev all h x := by
  simp only [advance, if_neg hrep]
  split_ifs
  · exact (le_max_left _ _).trans (le_add_right _ _)
  · exact le_max_left _ _
  · exact le_rfl

theorem le_advance_thread : v all (.thread t) x ≤ advance v ev all (.thread t) x :=
  le_advance_of_not_replaces id

/-- …and the clock of an event that it takes over. -/
theorem now_le_advance (hgives : ev.Gives h) : now v all ev x ≤ advance v ev all h x := by
  simp only [advance, if_pos hgives]
  exact (le_max_right _ _).trans (le_add_right _ _)

/-- There is nothing else in a component other than the own one. -/
theorem le_advance_iff (hx : h ≠ .thread x) {n : ℕ} (hn : 0 < n) : n ≤ advance v ev all h x ↔
      ¬ ev.Replaces h ∧ n ≤ v all h x ∨ ev.Gives h ∧ n ≤ now v all ev x := by
  simp only [advance, hx, and_false, if_false, add_zero]
  by_cases hrep : ev.Replaces h <;> by_cases hgives : ev.Gives h <;>
    simp [hrep, hgives, hn.ne']

/-- The clocks of the wider order are ahead. -/
theorem now_mono (hle : ∀ h x, v false h x ≤ v true h x) (ev : Event T O) (x : T) :
    now v false ev x ≤ now v true ev x := by
  cases ev with
  | create p c | send p o s | access p => exact hle _ x
  | recv p o strong =>
    cases strong with
    | true => exact max_le_max (hle _ x) (hle _ x)
    | false => exact (hle _ x).trans (le_max_left _ _)

theorem advance_mono (hle : ∀ h x, v false h x ≤ v true h x) (ev : Event T O) (h : Holder T O)
    (x : T) : advance v ev false h x ≤ advance v ev true h x := by
  have hnow := now_mono hle ev x
  have hh := hle h x
  simp only [advance]
  split_ifs <;> omega

/-- The clocks of the acting thread after each event. -/
abbrev Log (T : Type) := List (Bool → T → ℕ)

/-- What has happened, the clocks of the acting threads after each event, and the clocks now. -/
structure Inv (evs : List (Event T O)) (log : Log T) (alive : Set T) (v : Clocks T O) : Prop where
  length : log.length = evs.length
  le : ∀ h x, v false h x ≤ v true h x
  own : ∀ t all, v all (.thread t) t = v false (.thread t) t
  own_pos : ∀ t ∈ alive, 0 < v false (.thread t) t
  absent : ∀ t ∉ alive, ∀ all h x, v all h t = 0 ∧ v all (.thread t) x = 0
  /-- Nobody else is up to the present segment of a thread. -/
  behind : ∀ t ∈ alive, ∀ all h, h ≠ .thread t → v all h t < v false (.thread t) t
  logged : ∀ {i : ℕ} {a : Event T O} {c : Bool → T → ℕ}, evs[i]? = some a → log[i]? = some c →
    ∀ all x, c all x ≤ v all (.thread a.thr) x
  stamped : ∀ {i : ℕ} {t : T} {c : Bool → T → ℕ}, evs[i]? = some (.access t) →
    log[i]? = some c → 0 < c false t
  known : ∀ {i : ℕ} {t : T} {c : Bool → T → ℕ}, evs[i]? = some (.access t) → log[i]? = some c →
    ∀ all h, h ≠ .thread t → (Known evs all h i ↔ c false t ≤ v all h t)
  past : ∀ {i : ℕ} {t : T} {c : Bool → T → ℕ}, evs[i]? = some (.access t) → log[i]? = some c →
    ∀ all h, Known evs all h i → ∀ x, c false x ≤ v all h x

/-- The threads after an event. -/
def aliveAfter (alive : Set T) (ev : Event T O) : Set T := alive ∪ {c | ∃ p, ev = .create p c}

/-- An event that can happen: the acting thread is there, and one that is created is new. -/
structure Possible (alive : Set T) (ev : Event T O) : Prop where
  acts : ev.thr ∈ alive
  fresh : ∀ p c, ev = .create p c → c ∉ alive

namespace Inv

variable {log : Log T} {alive : Set T} {c : Bool → T → ℕ}

/-- What another takes over is the clock of a segment that ends. -/
theorem ticks_of_gives (hgives : ev.Gives h) (hne : h ≠ .thread ev.thr) : ev.Ticks := by
  cases ev with
  | create p c | send p o s => trivial
  | recv p o s | access p =>
    cases h with
    | obj q => exact absurd hgives nofun
    | thread t =>
      rcases hgives with rfl | ⟨p', hcreate⟩
      · exact absurd rfl hne
      · cases hcreate

section

variable (hinv : Inv evs log alive v)
include hinv

theorem now_absent (ht : t ∉ alive) : now v all ev t = 0 := by
  rw [now]
  split
  · rw [(hinv.absent t ht all _ t).1, (hinv.absent t ht all _ t).1, max_self]
  · exact (hinv.absent t ht all _ t).1

/-- The clock of an event is behind in the components of other threads. -/
theorem now_lt (ht : t ∈ alive) (hne : ev.thr ≠ t) : now v all ev t < v false (.thread t) t := by
  have hthread : v all (.thread ev.thr) t < v false (.thread t) t :=
    hinv.behind t ht all _ fun h => hne (Holder.thread.inj h)
  rw [now]
  split
  · exact max_lt hthread (hinv.behind t ht all _ (by simp))
  · exact hthread

/-- **The clock of an event has what comes before it.** -/
theorem upToNow_iff (hi : evs[i]? = some (.access t))
    (hc : log[i]? = some c) : UpToNow evs ev all i ↔ c false t ≤ now v all ev t := by
  have hlt := lt_length hi
  by_cases hthr : ev.thr = t
  · subst hthr
    have hle := (hinv.logged hi hc false ev.thr).trans_eq (hinv.own ev.thr all).symm
    exact iff_of_true (.inr (.inl (known_own (a := .access ev.thr) hi)))
      (hle.trans (le_now v all ev _))
  · have hthread : Holder.thread (O := O) ev.thr ≠ .thread t := fun h => hthr (Holder.thread.inj h)
    rw [UpToNow, hinv.known hi hc all _ hthread, now]
    cases hrecv : ev.receives all with
    | none =>
      simp only [reduceCtorEq, false_and, exists_false, or_false]
      exact or_iff_right hlt.ne
    | some o =>
      simp only [some.injEq, exists_eq_left', le_max_iff]
      rw [hinv.known hi hc all (.obj o) nofun]
      exact or_iff_right hlt.ne

theorem le_now_of_upToNow (hi : evs[i]? = some (.access t))
    (hc : log[i]? = some c) (hup : UpToNow evs ev all i) (x : T) : c false x ≤ now v all ev x := by
  have hlt := lt_length hi
  rcases hup with rfl | hknown | ⟨o, hrecv, hknown⟩
  · exact absurd hlt (lt_irrefl _)
  · exact (hinv.past hi hc all _ hknown x).trans (le_now v all ev x)
  · refine (hinv.past hi hc all _ hknown x).trans ?_
    rw [now, hrecv]
    exact le_max_right _ _

variable (hev : Possible alive ev)
include hev

/-- Receiving tells a thread nothing about itself. -/
theorem now_own : now v all ev ev.thr = v false (.thread ev.thr) ev.thr := by
  rw [now]
  split
  · rename_i o _
    rw [hinv.own, max_eq_left (hinv.behind _ hev.acts all (.obj o) (by simp)).le]
  · exact hinv.own _ _

theorem now_le_own (hgives : ev.Gives (.thread t)) : now v all ev t ≤ v false (.thread t) t := by
  rcases hgives with rfl | ⟨p, hcreate⟩
  · exact (hinv.now_own hev).le
  · rw [hinv.now_absent (hev.fresh p t hcreate)]
    exact zero_le

open Classical in
/-- The own component only moves on. -/
theorem advance_own : advance v ev all (.thread t) t
      = v false (.thread t) t + if ev.Ticks ∧ ev.Gives (.thread t) then 1 else 0 := by
  have hrep : ¬ ev.Replaces (.thread t) := id
  simp only [advance, if_neg hrep, and_true]
  by_cases hgives : ev.Gives (.thread t)
  · rw [if_pos hgives, hinv.own, max_eq_left (hinv.now_le_own hev hgives)]
    simp [hgives]
  · rw [if_neg hgives, if_neg fun h => hgives h.2, hinv.own, add_zero]

theorem own_le_advance : v false (.thread t) t ≤ advance v ev all (.thread t) t := by
  rw [hinv.advance_own hev]
  exact le_add_right _ _

theorem own_pos_advance (ht : t ∈ aliveAfter alive ev) : 0 < advance v ev false (.thread t) t := by
  rcases ht with ht | ⟨p, rfl⟩
  · exact (hinv.own_pos t ht).trans_le (hinv.own_le_advance hev)
  · rw [hinv.advance_own hev, if_pos ⟨trivial, .inr ⟨p, rfl⟩⟩]
    exact succ_pos _

theorem behind_advance (ht : t ∈ aliveAfter alive ev) (hne : h ≠ .thread t) :
    advance v ev all h t < advance v ev false (.thread t) t := by
  have hpos := hinv.own_pos_advance hev ht
  have hown : v false (.thread t) t ≤ advance v ev false (.thread t) t := hinv.own_le_advance hev
  refine lt_of_not_ge fun hge => ?_
  rcases (le_advance_iff hne hpos).mp hge with ⟨-, hle⟩ | ⟨hgives, hle⟩
  · by_cases halive : t ∈ alive
    · exact absurd (hown.trans hle) (hinv.behind t halive all h hne).not_ge
    · rw [(hinv.absent t halive all h t).1] at hle
      omega
  · by_cases halive : t ∈ alive
    · by_cases hthr : ev.thr = t
      · -- The clock that is taken over is the one before the tick.
        subst hthr
        rw [hinv.now_own hev, hinv.advance_own hev,
          if_pos ⟨ticks_of_gives hgives hne, .inl rfl⟩] at hle
        omega
      · exact absurd (hown.trans hle) (hinv.now_lt halive hthr).not_ge
    · rw [hinv.now_absent halive] at hle
      omega

theorem absent_advance (ht : t ∉ aliveAfter alive ev) :
    advance v ev all h t = 0 ∧ advance v ev all (.thread t) x = 0 := by
  have halive : t ∉ alive := fun h => ht (.inl h)
  have hgives : ¬ ev.Gives (.thread t) := by
    rintro (rfl | hcreate)
    · exact halive hev.acts
    · exact ht (.inr hcreate)
  have hthread : ∀ x, advance v ev all (.thread t) x = 0 := fun x => by
    simp only [advance, if_neg hgives]
    rw [(hinv.absent t halive all (.thread t) x).2, ite_self]
  refine ⟨?_, hthread x⟩
  by_cases hh : h = .thread t
  · rw [hh, hthread]
  · refine Nat.eq_zero_of_not_pos fun hpos => ?_
    rcases (le_advance_iff hh one_pos).mp hpos with ⟨-, hle⟩ | ⟨-, hle⟩
    · rw [(hinv.absent t halive all h t).1] at hle
      omega
    · rw [hinv.now_absent halive] at hle
      omega

end

/-- An event of the history and its clock: both are old, or both are the last. -/
theorem snoc_cases (hinv : Inv evs log alive v) {a : Event T O} {d : Bool → T → ℕ}
    (hi : (evs ++ [ev])[i]? = some a) (hc : (log ++ [d])[i]? = some c) :
    evs[i]? = some a ∧ log[i]? = some c ∨ i = evs.length ∧ a = ev ∧ c = d := by
  have hlen := hinv.length
  rcases getElem?_snoc hi with hold | ⟨hlast, ha⟩
  · have := lt_length hold
    rcases getElem?_snoc hc with hc | ⟨hc, -⟩
    · exact .inl ⟨hold, hc⟩
    · omega
  · rcases getElem?_snoc hc with hc | ⟨-, hd⟩
    · have := lt_length hc
      omega
    · exact .inr ⟨hlast, ha, hd⟩

/-- An access gives its clock to nobody. -/
theorem not_known_access (hne : h ≠ .thread t) : ¬ Known (evs ++ [.access t]) all h evs.length := by
  rw [known_append]
  rintro (⟨-, hknown⟩ | ⟨hgives, -⟩)
  · exact absurd hknown.lt_length (lt_irrefl _)
  · exact ticks_of_gives hgives hne

/-- **One event keeps the invariant.** -/
theorem advance (hinv : Inv evs log alive v) (hev : Possible alive ev) :
    Inv (evs ++ [ev]) (log ++ [fun all => VectorClocks.advance v ev all (.thread ev.thr)])
      (aliveAfter alive ev) (VectorClocks.advance v ev) where
  length := by simp [hinv.length]
  le h x := advance_mono hinv.le ev h x
  own t all := by rw [hinv.advance_own hev, hinv.advance_own hev]
  own_pos t ht := hinv.own_pos_advance hev ht
  absent t ht all h x := hinv.absent_advance hev ht
  behind t ht all h hne := hinv.behind_advance hev ht hne
  logged hi hc all x := by
    rcases hinv.snoc_cases hi hc with ⟨hi, hc⟩ | ⟨-, rfl, rfl⟩
    · exact (hinv.logged hi hc all x).trans le_advance_thread
    · exact le_rfl
  stamped hi hc := by
    rcases hinv.snoc_cases hi hc with ⟨hi, hc⟩ | ⟨-, rfl, rfl⟩
    · exact hinv.stamped hi hc
    · exact hinv.own_pos_advance hev (.inl hev.acts)
  known hi hc all h hne := by
    rcases hinv.snoc_cases hi hc with ⟨hi, hc⟩ | ⟨rfl, rfl, rfl⟩
    · rw [known_append, le_advance_iff hne (hinv.stamped hi hc), hinv.known hi hc all h hne,
        hinv.upToNow_iff hi hc]
    · exact iff_of_false (not_known_access hne)
        (hinv.behind_advance hev (.inl hev.acts) hne).not_ge
  past hi hc all h hknown x := by
    rcases hinv.snoc_cases hi hc with ⟨hi, hc⟩ | ⟨rfl, rfl, rfl⟩
    · rcases known_append.mp hknown with ⟨hrep, hknown⟩ | ⟨hgives, hup⟩
      · exact (hinv.past hi hc all h hknown x).trans (le_advance_of_not_replaces hrep)
      · exact (hinv.le_now_of_upToNow hi hc hup x).trans (now_le_advance hgives)
    · obtain rfl := not_not.mp fun hne => not_known_access hne hknown
      cases all with
      | false => exact le_rfl
      | true => exact advance_mono hinv.le _ _ x

end Inv

/-- The clocks after each event decide the order: of the events of one thread, and of an access and
an event of another thread. -/
structure Characterises (evs : List (Event T O)) (log : Log T) : Prop where
  mono : ∀ {i j : ℕ} {a b : Event T O} {c d : Bool → T → ℕ}, i ≤ j → evs[i]? = some a →
    evs[j]? = some b → a.thr = b.thr → log[i]? = some c → log[j]? = some d →
    ∀ all x, c all x ≤ d all x
  before_iff : ∀ {i j : ℕ} {t : T} {b : Event T O} {c d : Bool → T → ℕ},
    evs[i]? = some (.access t) → evs[j]? = some b → b.thr ≠ t → log[i]? = some c →
    log[j]? = some d → ∀ all, (∀ x, c false x ≤ d all x) ↔ Before evs all i j

/-- **One event more, and the clocks still characterise the order.** -/
theorem Characterises.advance {log : Log T} {alive : Set T} (hchar : Characterises evs log)
    (hinv : Inv evs log alive v) (hev : Possible alive ev) :
    Characterises (evs ++ [ev])
      (log ++ [fun all => VectorClocks.advance v ev all (.thread ev.thr)]) where
  mono {i j a b c d} hij hi hj hthr hc hd all x := by
    rcases hinv.snoc_cases hj hd with ⟨hj, hd⟩ | ⟨rfl, rfl, rfl⟩
    · have hlt := lt_length hj
      rcases hinv.snoc_cases hi hc with ⟨hi, hc⟩ | ⟨rfl, -, -⟩
      · exact hchar.mono hij hi hj hthr hc hd all x
      · omega
    · have := (hinv.advance hev).logged hi hc all x
      rwa [hthr] at this
  before_iff {i j t b c d} hi hj hthr hc hd all := by
    have hinv' := hinv.advance hev
    have hne : Holder.thread b.thr ≠ (.thread t : Holder T O) :=
      fun h => hthr (Holder.thread.inj h)
    rcases hinv.snoc_cases hj hd with ⟨hj', hd'⟩ | ⟨rfl, rfl, rfl⟩
    · have hlt := (List.getElem?_eq_some_iff.mp hj').1
      rcases hinv.snoc_cases hi hc with ⟨hi', hc'⟩ | ⟨rfl, rfl, rfl⟩
      · rw [before_append hlt]
        exact hchar.before_iff hi' hj' hthr hc' hd' all
      · -- An event is not known to others before it happens.
        refine iff_of_false (fun hle => ?_) fun hb => absurd hb.lt hlt.not_gt
        have hbehind := hinv.behind t hev.acts all (.thread b.thr) hne
        have hown : v false (.thread t) t
            ≤ VectorClocks.advance v (.access t) false (.thread t) t := hinv.own_le_advance hev
        exact absurd ((hle t).trans (hinv.logged hj' hd' all t)) (hbehind.trans_le hown).not_ge
    · have hold : evs.length ≠ i := by
        rintro rfl
        obtain rfl := some.inj (hi.symm.trans hj)
        exact hthr rfl
      have hknown : Known (evs ++ [b]) all (.thread b.thr) i
          ↔ Before (evs ++ [b]) all i evs.length := by
        rw [known_acting, ← reaches_last, reflTransGen_iff_eq_or_transGen]
        exact or_iff_right hold
      rw [← hknown]
      exact ⟨fun hle => (hinv'.known hi hc all _ hne).mpr (hle t),
        fun hk x => hinv'.past hi hc all _ hk x⟩

open Classical in
/-- The clocks before anything happens: there is one thread. -/
noncomputable def start (root : T) : Clocks T O := fun _ h x =>
  if h = .thread root ∧ x = root then 1 else 0

end Clocks

end VectorClocks

import Mathlib.Init

/-!
# Edge-triggered readiness

A source is polled edge triggered: that it has become ready is reported
once. Its consumer takes what there is until it finds the source empty,
and then asks to be called when there is more. A report takes the request
that waits, or is kept for the next one.

The report may come at any time, also between the moment at which the
consumer finds the source empty and the one at which it asks. `Owed` says
that nothing is lost: as long as the consumer waits or is about to ask, a
source that is ready has a report that is due or kept. So a consumer that
waits for a report when none is due has taken everything (`Owed.rest`).
-/

structure EdgeTriggered where
  /-- The source has something to take. -/
  ready : Prop
  /-- It has become ready, and that has not been reported. -/
  edge : Prop
  /-- A report is kept for the next request. -/
  kept : Prop
  /-- A request waits for the next report. -/
  waiting : Prop
  /-- The consumer is on its way to a request, and takes nothing before. -/
  asking : Prop

namespace EdgeTriggered

structure Owed (e : EdgeTriggered) : Prop where
  apart : e.kept → ¬e.waiting
  alone : e.waiting → ¬e.asking
  owed : e.waiting ∨ e.asking → e.ready → e.edge ∨ e.kept

namespace Owed

variable {e : EdgeTriggered}

/-- Something arrives. -/
theorem arrive (h : Owed e) (ready : Prop) : Owed { e with ready, edge := True } :=
  ⟨h.apart, h.alone, fun _ _ => .inl trivial⟩

/-- Something is taken, or the consumer moves on. -/
theorem mono {e' : EdgeTriggered} (h : Owed e) (ready : e'.ready → e.ready)
    (edge : e.edge → e'.edge) (kept : e'.kept ↔ e.kept) (waiting : e'.waiting ↔ e.waiting)
    (asking : e'.asking → e.asking) : Owed e' :=
  ⟨fun hk hw => h.apart (kept.mp hk) (waiting.mp hw),
    fun hw ha => h.alone (waiting.mp hw) (asking ha),
    fun hwa hr => (h.owed (hwa.imp waiting.mp asking) (ready hr)).imp edge kept.mpr⟩

/-- The consumer finds the source empty. -/
theorem drained (hw : ¬e.waiting) (hr : ¬e.ready) : Owed { e with asking := True } :=
  ⟨fun _ => hw, fun h => absurd h hw, fun _ h => absurd h hr⟩

/-- A report of a source that is not ready any more changes nothing. -/
theorem reportIdle (h : Owed e) (hr : ¬e.ready) : Owed { e with edge := False } :=
  ⟨h.apart, h.alone, fun _ hready => absurd hready hr⟩

/-- A report takes the request. -/
theorem reportWaiting (h : Owed e) (hw : e.waiting) :
    Owed { e with edge := False, waiting := False } :=
  ⟨fun _ => not_false, fun h => h.elim, fun hwa _ => absurd (hwa.resolve_left id) (h.alone hw)⟩

/-- It is kept when there is none. -/
theorem reportKept (h : Owed e) (hw : ¬e.waiting) :
    Owed { e with edge := False, kept := True } :=
  ⟨fun _ => hw, h.alone, fun _ _ => .inr trivial⟩

/-- The request takes the report that was kept. -/
theorem granted (hw : ¬e.waiting) : Owed { e with kept := False, asking := False } :=
  ⟨fun h => h.elim, fun h => absurd h hw, fun hwa => absurd (hwa.resolve_right id) hw⟩

/-- It waits when there is none. -/
theorem ask (h : Owed e) (ha : e.asking) (hk : ¬e.kept) :
    Owed { e with waiting := True, asking := False } :=
  ⟨fun hkept => absurd hkept hk, fun _ => not_false, fun _ hr => h.owed (.inr ha) hr⟩

/-- **A consumer that waits with no report due has taken everything.** -/
theorem rest (h : Owed e) (hw : e.waiting) (hedge : ¬e.edge) : ¬e.ready := fun hr =>
  (h.owed (.inl hw) hr).elim hedge fun hk => h.apart hk hw

end Owed

end EdgeTriggered

import HttpServer.BufferAppend
import HttpServer.BufferCopyRuns

/-!
# Buffers that were appended

What a program that also appends can have in its hands (`Used`): a buffer
of the queue's invariant, one with exhausted chunks in front of its read
position (well formed, but its byte count is wrong), or a source that
`appendFrom` left with its old write position (`Broken`).

`Appends` says that the destination is a queue of both contents from then
on. Whether it is can be told from the two buffers before (`appendFrom_iff`).
-/

namespace HttpServer

namespace Buffer

/-- The buffers of a program that calls `appendFrom` too, on buffers whose
positions are in range. -/
inductive Used : Buffer → Prop where
  | new (heap : ℕ → ℕ → UInt8) : Used (new heap)
  | apply {b : Buffer} (op : Op) (h : Used b) (hr : b.InRange) : Used (b.apply op)
  | appended {b other : Buffer} (h : Used b) (ho : Used other) (hr : b.InRange)
      (hro : other.InRange) : Used (b.appendFrom other).1
  | emptied {b other : Buffer} (h : Used b) (ho : Used other) (hr : b.InRange)
      (hro : other.InRange) : Used (b.appendFrom other).2

/-- The positions are those of a chunk that is gone. -/
structure Broken (b : Buffer) : Prop where
  widx : b.chunks.length ≤ b.wpos.idx
  ridx : b.rpos.idx ≠ 0

section

variable {b other : Buffer}

theorem restart_none_inv (b : Buffer) : (b.restart none).Inv := by
  refine ⟨⟨rfl, rfl, rfl, ?_, Nat.le_refl _, Nat.le_refl _⟩, rfl, ?_, fun _ => rfl⟩
  · intro n hn
    obtain rfl := List.mem_singleton.mp hn
    exact Nat.zero_le _
  · intro c hc
    cases hc

/-- The chunk that is put back was not the first one, so the write position
is not in it. -/
theorem restart_some_broken {os : List Chunk} {ms : List ℕ} {c : Chunk} (ho : other.Wf)
    (hc : other.isConsumed = false) (hz : other.readSize ≠ 0)
    (t : Trimmed other os ms (some c)) : (other.restart (some c)).Broken := by
  have hms := length_pos_of_getD (t.head ho hc hz)
  have hw : other.wpos.idx ≠ 0 := by
    rcases t.length ho with ⟨hnone, -⟩ | ⟨hlen, -⟩
    · cases hnone
    · omega
  refine ⟨?_, hw⟩
  show 1 ≤ other.wpos.idx
  omega

theorem emptied_cases (b : Buffer) (ho : other.Wf) :
    (b.appendFrom other).2 = other ∨ (b.appendFrom other).2.Inv
      ∨ (b.appendFrom other).2.Broken := by
  by_cases hc : other.isConsumed = true
  · exact .inl (by rw [appendFrom_of_consumed b hc])
  · by_cases hz : other.readSize = 0
    · exact .inl (by rw [appendFrom_of_empty b hz])
    · have hc := Bool.eq_false_iff.mpr hc
      obtain ⟨os, ms, otherLast, t, heq⟩ := appendFrom_snd b ho hc hz
      rw [heq]
      cases otherLast with
      | none => exact .inr (.inl (restart_none_inv other))
      | some c => exact .inr (.inr (restart_some_broken ho hc hz t))

theorem Broken.not_inRange (h : b.Broken) : ¬ b.InRange := by
  intro hr
  have hw := h.widx
  have hlt := hr.widx
  omega

/-- A buffer that is not broken is well formed, and keeps the queue's
invariant as long as no chunk is in front of the read position. -/
theorem Used.cases (h : Used b) : (b.Wf ∧ (b.rpos.idx = 0 → b.Inv)) ∨ b.Broken := by
  induction h with
  | new heap => exact .inl ⟨(new_inv heap).1.wf, fun _ => (new_inv heap).1⟩
  | apply op _ hr ih =>
      obtain ⟨hwf, hinv⟩ := ih.resolve_right fun hbr => hbr.not_inRange hr
      have hplaced := apply_placed hwf op
      exact .inl ⟨hplaced.wf, fun h0 => apply_inv (hinv (hplaced.ridx ▸ h0)) op⟩
  | @appended b other _ _ hr hro ih iho =>
      obtain ⟨hwf, hinv⟩ := ih.resolve_right fun hbr => hbr.not_inRange hr
      obtain ⟨hwfo, hinvo⟩ := iho.resolve_right fun hbr => hbr.not_inRange hro
      obtain ⟨hwf', hle⟩ := appendFrom_wf hwf hwfo
      refine .inl ⟨hwf', fun h0 => ?_⟩
      have hinv := hinv (by omega)
      by_cases hc : other.isConsumed = true
      · rw [appendFrom_of_consumed b hc]
        exact hinv
      · by_cases hz : other.readSize = 0
        · rw [appendFrom_of_empty b hz]
          exact hinv
        · have hc := Bool.eq_false_iff.mpr hc
          have hidx := (isConsumed_eq_false.mp hc).1
          refine (appendFrom_spec hinv (hinvo hidx) hc hz fun hread => ?_).1
          by_contra hoff
          rw [appendFrom_rpos hwf hwfo hc hz hread hoff] at h0
          cases h0
  | @emptied b other _ _ _ hro _ iho =>
      obtain ⟨hwfo, hinvo⟩ := iho.resolve_right fun hbr => hbr.not_inRange hro
      rcases emptied_cases b hwfo with heq | hinv | hbr
      · rw [heq]
        exact .inl ⟨hwfo, hinvo⟩
      · exact .inl ⟨hinv.wf, fun _ => hinv⟩
      · exact .inr hbr

theorem Used.inv (h : Used b) (h0 : b.rpos.idx = 0) : b.Inv := by
  rcases h.cases with ⟨-, hinv⟩ | hbr
  · exact hinv h0
  · exact absurd h0 hbr.ridx

theorem Used.wf (h : Used b) (hr : b.InRange) : b.Wf :=
  (h.cases.resolve_right fun hbr => hbr.not_inRange hr).1

/-! ## The destination as a queue -/

/-- The calls on the destination that come after. -/
inductive Later where
  | write (data : List UInt8)
  | consume (n : ℕ)

def Later.run (b : Buffer) : Later → Buffer
  | .write data => b.write data
  | .consume n => b.consume n

/-- What they do to a queue of bytes. -/
def Later.queue (c : List UInt8) : Later → List UInt8
  | .write data => c ++ data
  | .consume n => c.drop n

/-- The accessors of `b` are right for the content `c`. -/
structure Right (b : Buffer) (c : List UInt8) : Prop where
  range : b.InRange
  content : b.content = c
  count : b.byteCount = c.length
  read : c ≠ [] → b.readSize ≠ 0

/-- `b.appendFrom(&other)` concatenates, and what comes after acts on the
content as on a queue. -/
structure Appends (b other : Buffer) : Prop where
  range : b.InRange
  right : ∀ laters : List Later, Right (laters.foldl Later.run (b.appendFrom other).1)
    (laters.foldl Later.queue (b.content ++ other.content))

/-- With room for a write, and nothing exhausted at the read position, all
that is written or consumed leaves the buffer so. -/
structure Sound (b : Buffer) : Prop where
  inv : b.Inv
  live : b.Live
  room : 0 < b.writeSize

theorem Sound.right (h : b.Sound) : Right b b.content :=
  ⟨h.inv.wf.inRange, rfl, byteCount_eq h.inv,
    fun hne => Nat.ne_of_gt (h.live.readSize_pos h.inv hne)⟩

theorem Sound.run (h : b.Sound) (l : Later) :
    (Later.run b l).Sound ∧ (Later.run b l).content = Later.queue b.content l := by
  have hroom := h.room
  cases l with
  | write data =>
      obtain ⟨hinv, hcont⟩ := write_spec h.inv data
      have hfull : ¬(b.rpos = b.wpos ∧ b.wpos.off = BlockSize) := by
        rintro ⟨-, hoff⟩
        rw [writeSize, hoff, Nat.sub_self] at hroom
        exact Nat.lt_irrefl 0 hroom
      exact ⟨⟨hinv, write_live h.inv h.live hfull data, write_room h.inv hroom data⟩, hcont⟩
  | consume n =>
      obtain ⟨hinv, hcont, -⟩ := consume_spec h.inv n
      exact ⟨⟨hinv, consume_live h.inv h.live n, (consume_writeSize b n).symm ▸ hroom⟩, hcont⟩

theorem Sound.run_right : ∀ (laters : List Later) {b : Buffer}, b.Sound →
    Right (laters.foldl Later.run b) (laters.foldl Later.queue b.content)
  | [], _, h => h.right
  | l :: laters, b, h => by
      obtain ⟨hs, hcont⟩ := h.run l
      rw [List.foldl_cons, List.foldl_cons, ← hcont]
      exact hs.run_right laters

/-- With a chunk in front of the read position the content is counted in
the chunks behind the first one alone. -/
theorem content_le_of_ridx (h : b.Wf) (hr : b.rpos.idx ≠ 0) :
    b.content.length ≤ (b.sizes.drop 1).sum := by
  obtain ⟨k, hk⟩ := Nat.exists_eq_succ_of_ne_zero hr
  have hsum := List.sum_take_add_sum_drop (b.sizes.drop 1) k
  rw [List.drop_drop, Nat.add_comm 1 k, ← Nat.succ_eq_add_one k, ← hk] at hsum
  have hlen : (b.cells.drop b.rpos.idx).flatten.length = (b.sizes.drop b.rpos.idx).sum := by
    rw [List.length_flatten, List.map_drop, map_length_cells h]
  rw [content_eq h, List.length_drop, hlen]
  omega

theorem not_right_of_ridx {c : List UInt8} (h : b.Wf) (hr : b.rpos.idx ≠ 0) (hne : c ≠ []) :
    ¬ Right b c := by
  intro hright
  have hle := content_le_of_ridx h hr
  have hcount := hright.count
  have hread := hright.read hne
  rw [hright.content] at hle
  rw [byteCount] at hcount
  omega

/-- It stays there under a write. -/
theorem not_appends_of_ridx (h : (b.appendFrom other).1.Wf)
    (hr : (b.appendFrom other).1.rpos.idx ≠ 0) : ¬ Appends b other := by
  intro happ
  have hplaced := apply_placed h (.write [0])
  refine not_right_of_ridx hplaced.wf (hplaced.ridx.trans_ne hr) ?_ (happ.right [.write [0]])
  exact List.append_ne_nil_of_right_ne_nil _ (List.cons_ne_nil _ _)

/-- A buffer whose last chunk is full has no room for what is written after
all was consumed. -/
theorem room_of_right (h : b.Inv) (hl : b.Live)
    (hright : Right ((b.consume b.content.length).write [0]) [0]) : 0 < b.writeSize := by
  refine Nat.pos_of_ne_zero fun hz => ?_
  obtain ⟨hinv, hcont, -⟩ := consume_spec h b.content.length
  have hlive := consume_live h hl b.content.length
  have hsize := consume_writeSize b b.content.length
  rw [List.drop_length] at hcont
  generalize b.consume b.content.length = b₁ at *
  have hw := hinv.widx_of_nil hcont
  have hread := readSize_of_nil hinv.wf hcont
  have hoff := hinv.wf.off_le
  have hlive' : (b₁.write [0]).Live :=
    fun h0 => absurd h0 (hright.read (List.cons_ne_nil _ _))
  refine (write_live_iff hinv hlive [0]).mp hlive' ⟨List.cons_ne_nil _ _, ?_, ?_⟩
  · exact rpos_eq_wpos hinv.wf hinv.first hw hread
  · rw [writeSize] at hsize
    omega

/-- With nothing to append it is up to the destination alone. -/
theorem appends_empty_iff (h : b.Inv) (ho : other.Inv) (hc : other.isConsumed = false)
    (hz : other.readSize = 0) : Appends b other ↔ b.Live ∧ 0 < b.writeSize := by
  have hnil := content_eq_nil ho hc hz
  constructor
  · intro happ
    have hright := happ.right
    rw [appendFrom_of_empty b hz, hnil, List.append_nil] at hright
    have hlive : b.Live := by
      intro hread
      refine h.widx_of_nil ?_
      by_contra hne
      exact (hright []).read hne hread
    refine ⟨hlive, room_of_right h hlive ?_⟩
    have hlast := hright [.consume b.content.length, .write [0]]
    simp only [List.foldl_cons, List.foldl_nil, Later.run, Later.queue, List.drop_length,
      List.nil_append] at hlast
    exact hlast
  · rintro ⟨hlive, hroom⟩
    refine ⟨h.wf.inRange, fun laters => ?_⟩
    rw [appendFrom_of_empty b hz, hnil, List.append_nil]
    exact Sound.run_right laters ⟨h, hlive, hroom⟩

/-- Else no chunk may come to be in front of the read position. -/
theorem appends_moved_iff (h : b.Inv) (ho : other.Inv) (hc : other.isConsumed = false)
    (hz : other.readSize ≠ 0) : Appends b other ↔ (b.readSize = 0 → b.rpos.off = 0) := by
  constructor
  · intro happ hread
    by_contra hoff
    have hr := appendFrom_rpos h.wf ho.wf hc hz hread hoff
    refine not_appends_of_ridx (appendFrom_wf h.wf ho.wf).1 ?_ happ
    rw [hr]
    exact Nat.succ_ne_zero _
  · intro hgood
    obtain ⟨hinv, hcont, hlive, hroom⟩ := appendFrom_spec h ho hc hz hgood
    refine ⟨h.wf.inRange, fun laters => ?_⟩
    rw [← hcont]
    exact Sound.run_right laters ⟨hinv, hlive, hroom⟩

/-- `appendFrom` concatenates exactly when no chunk is in front of the read
position of the destination, and none will be. -/
theorem appendFrom_iff (h : Used b) (ho : Used other) (hc : other.isConsumed = false) :
    Appends b other ↔ b.rpos.idx = 0 ∧ if other.readSize = 0 then b.Live ∧ 0 < b.writeSize
      else b.readSize = 0 → b.rpos.off = 0 := by
  have hinvo := ho.inv (isConsumed_eq_false.mp hc).1
  have hiff : b.Inv → (Appends b other ↔ if other.readSize = 0 then b.Live ∧ 0 < b.writeSize
      else b.readSize = 0 → b.rpos.off = 0) := by
    intro hinv
    by_cases hz : other.readSize = 0
    · rw [if_pos hz]
      exact appends_empty_iff hinv hinvo hc hz
    · rw [if_neg hz]
      exact appends_moved_iff hinv hinvo hc hz
  constructor
  · intro happ
    have hidx : b.rpos.idx = 0 := by
      by_contra hne
      obtain ⟨hwf, hle⟩ := appendFrom_wf (h.wf happ.range) hinvo.wf
      exact not_appends_of_ridx hwf (by omega) happ
    exact ⟨hidx, (hiff (h.inv hidx)).mp happ⟩
  · rintro ⟨hidx, hcond⟩
    exact (hiff (h.inv hidx)).mpr hcond

end

theorem run_used (heap : ℕ → ℕ → UInt8) (ops : List Op) : Used (run heap ops) := by
  induction ops using List.reverseRecOn with
  | nil => exact .new heap
  | append_singleton ops op ih =>
      rw [run_append]
      exact .apply op ih (run_inv heap ops).wf.inRange

/-- Three bytes for the end of another buffer. -/
def tailBuffer : Buffer := run (fun _ _ => 0) [.write [6, 7, 8]]

theorem partlyRead_appends : Appends (run (fun _ _ => 0) [.write [1, 2, 3, 4, 5], .consume 4])
    tailBuffer :=
  (appendFrom_iff (run_used ..) (run_used ..) rfl).mpr (by decide)

/-- Five bytes were read to the last one, and three more appended; six are
counted. -/
theorem allRead_not_appends : ¬ ∀ b other : Buffer, Used b → Used other →
    other.isConsumed = false → Appends b other := by
  intro hall
  have happ := hall (run (fun _ _ => 0) [.write [1, 2, 3, 4, 5], .consume 5]) tailBuffer
    (run_used ..) (run_used ..) rfl
  have hcount := (happ.right []).count
  revert hcount
  decide

end Buffer

end HttpServer

import AesAccelerator.Dma

/-! # The flow of blocks through the board

`Flow` relates the record of what has been read and written to what is under way: the beats read
are the first of all transfers started on `DMA_TO_DEVICE`, the blocks in the core are those read
but not yet written, and the beats written are the first of all transfers started on
`DEVICE_TO_DMA`.  If these are the transfers of the other channel in the same order, every block is
written in the beat in which it was read (`Flow.origin_eq`).

Neither channel nor the core can break this, whatever the order of their steps, and as long as
a transfer is incomplete one of them can go on (`Flow.progress_write`, `Flow.progress_read`). -/

namespace AesAccelerator

/-! ### Transfers -/

/-- The beats a channel has still to move. -/
def restOf : Option Transfer → List DmaBeat
  | none => []
  | some t => t.rest

theorem Transfer.last_iff (t : Transfer) :
    t.beat.last = true ↔ t.index + 1 = t.request.blocks := beq_iff_eq

theorem Transfer.rest_start {r : Request} : (⟨r, 0⟩ : Transfer).rest = r.beats := rfl

theorem Transfer.rest_eq_cons {t : Transfer} (h : t.index < t.request.blocks) :
    t.rest = t.beat :: restOf (t.next t.beat.last) := by
  have hlen : t.request.beats.length = t.request.blocks := by
    rw [Request.beats, List.length_map, List.length_range]
  have hnext : restOf (t.next t.beat.last) = t.request.beats.drop (t.index + 1) := by
    unfold Transfer.next
    split_ifs with hl
    · rw [← t.last_iff.mp hl] at hlen
      exact (List.drop_eq_nil_of_le hlen.le).symm
    · rfl
  rw [hnext, Transfer.rest, List.drop_eq_getElem_cons (by omega)]
  simp [Request.beats, Transfer.beat]

theorem Transfer.next_index {t t' : Transfer} (h : t.index < t.request.blocks)
    (hn : t.next t.beat.last = some t') : t'.index < t'.request.blocks := by
  unfold Transfer.next at hn
  split_ifs at hn with hl
  obtain rfl := Option.some.inj hn
  have := mt t.last_iff.mpr hl
  show t.index + 1 < t.request.blocks
  omega

/-- The steps that follow from an action, its own included. -/
def Instr.work (i : Instr) : ℕ :=
  match i.action with
  | some (.simpleTransfer addr length _) => 1 + 3 * (⟨i.call, addr, length⟩ : Request).blocks
  | _ => 1

namespace Board

/-! ### The invariant -/

structure Flow (b : Board) : Prop where
  reading : ∀ t, b.dmaToDevice = some t → t.index < t.request.blocks
  writing : ∀ t, b.deviceToDma = some t → t.index < t.request.blocks
  read : b.readLog.map Item.origin ++ restOf b.dmaToDevice = b.reads.flatMap Request.beats
  held : b.readLog.map Item.origin =
    b.writeLog.map Prod.fst ++ (b.leaving ++ b.entering).map Item.origin
  write : b.writeLog.map Prod.fst ++ restOf b.deviceToDma = b.writes.flatMap Request.beats
  /-- Every block was written in the beat in which it was read. -/
  own : ∀ e ∈ b.writeLog, e.2.origin = e.1
  last : ∀ i ∈ b.leaving ++ b.entering, i.tlast = i.origin.last
  ahead : b.writes <+: b.reads

theorem flow_idle (memory : ℕ → BitVec 8) (keyReg : AesBlock) (program : List Instr) :
    (idle memory keyReg program).Flow where
  reading _ h := by cases h
  writing _ h := by cases h
  read := rfl
  held := rfl
  write := rfl
  own _ h := by cases h
  last _ h := by cases h
  ahead := List.prefix_rfl

section flow
variable {p : Platform} {b b' : Board} (hf : b.Flow)
include hf

/-- What is in the core or still to be read begins with what is still to be written. -/
theorem Flow.rest_prefix : restOf b.deviceToDma <+:
    (b.leaving ++ b.entering).map Item.origin ++ restOf b.dmaToDevice := by
  obtain ⟨more, hmore⟩ := hf.ahead
  refine ⟨more.flatMap Request.beats, ?_⟩
  apply (List.append_right_inj (b.writeLog.map Prod.fst)).mp
  rw [← List.append_assoc, hf.write, ← List.append_assoc, ← hf.held, hf.read, ← hmore,
    List.flatMap_append]

/-- The block that is written next was read in the beat in which it is written. -/
theorem Flow.origin_eq {t : Transfer} {item : Item} {rest : List Item}
    (ht : b.deviceToDma = some t) (hl : b.leaving = item :: rest) : item.origin = t.beat := by
  have hpre := hf.rest_prefix
  rw [ht, hl, restOf, Transfer.rest_eq_cons (hf.writing t ht)] at hpre
  exact (List.cons_prefix_cons.mp hpre).1.symm

theorem Flow.dmaRead (hs : b.dmaRead p = some b') : b'.Flow := by
  obtain ⟨t, ht, hlt, -, rfl⟩ := dmaRead_iff.mp hs
  refine ⟨fun t' ht' => Transfer.next_index hlt ht', hf.writing, ?_, ?_, hf.write, hf.own, ?_,
    hf.ahead⟩
  · have hrest : restOf b.dmaToDevice = t.beat :: restOf (t.next t.beat.last) := by
      rw [ht, restOf, Transfer.rest_eq_cons hlt]
    show (b.readLog ++ [b.readItem t]).map Item.origin ++ restOf (t.next t.beat.last) = _
    rw [List.map_append, List.append_assoc]
    exact (congrArg _ hrest.symm).trans hf.read
  · show (b.readLog ++ [b.readItem t]).map Item.origin =
      b.writeLog.map Prod.fst ++ (b.leaving ++ (b.entering ++ [b.readItem t])).map Item.origin
    rw [List.map_append, hf.held, ← List.append_assoc b.leaving, List.append_assoc,
      ← List.map_append]
  · intro i hi
    rcases List.mem_append.mp (List.append_assoc .. ▸ hi) with hi | hi
    · exact hf.last i hi
    · obtain rfl := List.mem_singleton.mp hi
      rfl

theorem Flow.core (hs : b.core p = some b') : b'.Flow := by
  obtain ⟨item, rest, he, rfl⟩ := core_iff.mp hs
  refine ⟨hf.reading, hf.writing, hf.read, ?_, hf.write, hf.own, ?_, hf.ahead⟩
  · show b.readLog.map Item.origin = b.writeLog.map Prod.fst ++
      (b.leaving ++ [{ item with data := p.encrypt b.keyReg item.data }] ++ rest).map Item.origin
    rw [hf.held, he]
    simp
  · have hlast := hf.last
    rw [he] at hlast
    intro i hi
    simp only [afterCore, List.mem_append, List.mem_singleton] at hi
    rcases hi with (hi | rfl) | hi
    · exact hlast i (List.mem_append_left _ hi)
    · exact hlast item (List.mem_append_right _ List.mem_cons_self)
    · exact hlast i (List.mem_append_right _ (List.mem_cons_of_mem _ hi))

theorem Flow.dmaWrite (hs : b.dmaWrite = some b') : b'.Flow := by
  obtain ⟨t, item, rest, ht, hl, hlt, rfl⟩ := dmaWrite_iff.mp hs
  have horigin := hf.origin_eq ht hl
  have hnext : t.next item.tlast = t.next t.beat.last := by
    rw [hf.last item (by rw [hl]; exact List.mem_cons_self), horigin]
  refine ⟨hf.reading, fun t' ht' => Transfer.next_index hlt (hnext ▸ ht'), hf.read, ?_, ?_, ?_, ?_,
    hf.ahead⟩
  · show b.readLog.map Item.origin =
      (b.writeLog ++ [(t.beat, item)]).map Prod.fst ++ (rest ++ b.entering).map Item.origin
    rw [hf.held, hl]
    simp [horigin]
  · show (b.writeLog ++ [(t.beat, item)]).map Prod.fst ++ restOf (t.next item.tlast) = _
    rw [hnext, List.map_append, List.append_assoc]
    refine Eq.trans ?_ hf.write
    rw [ht, restOf, Transfer.rest_eq_cons hlt]
    rfl
  · intro e he
    rcases List.mem_append.mp he with he | he
    · exact hf.own e he
    · obtain rfl := List.mem_singleton.mp he
      exact horigin
  · intro i hi
    apply hf.last i
    rw [hl]
    exact List.mem_cons_of_mem _ hi

/-! ### Progress -/

/-- When every block read is to be written, and the write channel is done, nothing is left. -/
theorem Flow.drained (hidle : b.deviceToDma = none) (hrw : b.reads = b.writes) :
    b.dmaToDevice = none ∧ b.leaving = [] ∧ b.entering = [] ∧
      b.writeLog.map Prod.fst = b.reads.flatMap Request.beats := by
  have hwrite := hf.write
  rw [hidle, restOf, List.append_nil, ← hrw] at hwrite
  have hnil : (b.leaving ++ b.entering).map Item.origin ++ restOf b.dmaToDevice = [] := by
    apply (List.append_right_inj (b.writeLog.map Prod.fst)).mp
    rw [List.append_nil, ← List.append_assoc, ← hf.held, hf.read, hwrite]
  simp only [List.append_eq_nil_iff, List.map_eq_nil_iff] at hnil
  obtain ⟨⟨hl, he⟩, hr⟩ := hnil
  refine ⟨?_, hl, he, hwrite⟩
  cases ht : b.dmaToDevice with
  | none => rfl
  | some t =>
      rw [ht, restOf, Transfer.rest_eq_cons (hf.reading t ht)] at hr
      cases hr

/-- While a transfer to memory is incomplete, the engine or the core can do a step. -/
theorem Flow.progress_write {t : Transfer} (ht : b.deviceToDma = some t) :
    ∃ a b', a ≠ .processor ∧ step p a b = some b' := by
  cases hl : b.leaving with
  | cons item rest =>
      exact ⟨.dmaWrite, b.afterWrite t item rest, by decide,
        dmaWrite_iff.mpr ⟨t, item, rest, ht, hl, hf.writing t ht, rfl⟩⟩
  | nil =>
      cases he : b.entering with
      | cons item rest =>
          exact ⟨.core, b.afterCore p item rest, by decide, core_iff.mpr ⟨item, rest, he, rfl⟩⟩
      | nil =>
          -- nothing is in the core, so the block to be written is still to be read
          have hpre := hf.rest_prefix
          rw [ht, hl, he, restOf, Transfer.rest_eq_cons (hf.writing t ht)] at hpre
          cases hr : b.dmaToDevice with
          | none =>
              rw [hr] at hpre
              exact absurd (List.prefix_nil.mp hpre) (List.cons_ne_nil _ _)
          | some t' =>
              have hroom : b.entering.length + b.leaving.length < p.capacity := by
                rw [hl, he]
                exact p.capacity_pos
              exact ⟨.dmaRead, b.afterRead t', by decide,
                dmaRead_iff.mpr ⟨t', hr, hf.reading t' hr, hroom, rfl⟩⟩

/-- While a channel is busy and every block read is to be written, a step can be done. -/
theorem Flow.progress_read (hrw : b.reads = b.writes) {t : Transfer} (ht : b.dmaToDevice = some t) :
    ∃ a b', a ≠ .processor ∧ step p a b = some b' := by
  cases hw : b.deviceToDma with
  | some t' => exact hf.progress_write hw
  | none =>
      rw [(hf.drained hw hrw).1] at ht
      cases ht

end flow

/-! ### How much there is to do -/

/-- The steps that the engine and the core have still to do. -/
def engineWork (b : Board) : ℕ :=
  3 * (restOf b.dmaToDevice).length + 2 * b.entering.length + b.leaving.length

def work (b : Board) : ℕ := (b.program.map Instr.work).sum + b.engineWork

section work
variable {p : Platform} {b b' : Board} {a : Actor}

theorem engineWork_lt (ha : a ≠ .processor) (hs : step p a b = some b') :
    b'.engineWork < b.engineWork := by
  unfold engineWork
  cases a with
  | processor => exact absurd rfl ha
  | dmaRead =>
      obtain ⟨t, ht, hlt, -, rfl⟩ := dmaRead_iff.mp hs
      rw [ht, restOf, Transfer.rest_eq_cons hlt]
      simp only [afterRead, List.length_append, List.length_cons, List.length_nil]
      omega
  | core =>
      obtain ⟨item, rest, he, rfl⟩ := core_iff.mp hs
      rw [he]
      simp only [afterCore, List.length_append, List.length_cons, List.length_nil]
      omega
  | dmaWrite =>
      obtain ⟨t, item, rest, -, hl, -, rfl⟩ := dmaWrite_iff.mp hs
      rw [hl]
      simp only [afterWrite, List.length_cons]
      omega

theorem execute_work {i : Instr} (hs : b.execute p i = some b') :
    b'.engineWork < b.engineWork + i.work := by
  obtain ⟨call, action⟩ := i
  cases action with
  | none => obtain rfl := Option.some.inj hs; exact Nat.lt_succ_self _
  | some action =>
      cases action with
      | writeKey | dCacheFlushRange | dCacheInvalidateRange =>
          obtain rfl := Option.some.inj hs
          exact Nat.lt_succ_self _
      | reset =>
          obtain rfl := Option.some.inj hs
          simp only [engineWork, restOf, Instr.work, List.length_nil]
          omega
      | whileBusy channel =>
          simp only [execute] at hs
          split_ifs at hs
          obtain rfl := Option.some.inj hs
          exact Nat.lt_succ_self _
      | simpleTransfer addr length channel =>
          obtain rfl := Option.some.inj hs
          simp only [simpleTransfer, Instr.work]
          split_ifs with hrefused
          · simp only [engineWork]
            omega
          · cases channel with
            | dmaToDevice =>
                simp only [start, engineWork, restOf, Transfer.rest_start, Request.beats,
                  List.length_map, List.length_range]
                omega
            | deviceToDma =>
                simp only [start, engineWork]
                omega

/-- Every step leaves less to do. -/
theorem work_lt (hs : step p a b = some b') : b'.work < b.work := by
  by_cases ha : a = .processor
  · subst ha
    obtain ⟨i, rest, hp, hexec⟩ := processor_iff.mp hs
    have hprogram := (execute_frame hexec).1
    have hlt := execute_work hexec
    have : ({ b with program := rest } : Board).engineWork = b.engineWork := rfl
    simp only [work, hprogram, hp, List.map_cons, List.sum_cons]
    omega
  · have hprogram : b'.program = b.program := by
      cases a with
      | processor => exact absurd rfl ha
      | dmaRead => obtain ⟨t, -, -, -, rfl⟩ := dmaRead_iff.mp hs; rfl
      | core => obtain ⟨item, rest, -, rfl⟩ := core_iff.mp hs; rfl
      | dmaWrite => obtain ⟨t, item, rest, -, -, -, rfl⟩ := dmaWrite_iff.mp hs; rfl
    have := engineWork_lt ha hs
    simp only [work, hprogram]
    omega

/-- No run goes on for ever, whatever the order of the steps. -/
theorem runs_length_le {order : List Actor} (h : Interleaving.runs (step p) order b = some b') :
    order.length + b'.work ≤ b.work :=
  Interleaving.length_add_le_of_runs work (fun _ _ _ hs => work_lt hs) h

end work

end Board

end AesAccelerator

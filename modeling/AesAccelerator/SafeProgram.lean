import AesAccelerator.Flow

/-! # Programs whose transfers are never refused

What the processor can know of the channels follows from its own actions: a channel that it has
seen idle stays idle until it starts a transfer there, and once the transfer to memory that
belongs to the last transfer from memory is complete, both channels are idle.  `Known` is this
knowledge, and `Safe` says of a program that it starts transfers only on channels known to be idle,
and in pairs: each transfer from memory is followed by one to memory with the same range.

In every interleaving of a safe program no transfer is refused (`sound_step`), the program gets
to its end (`Sound.advances`), and a call that returns with both channels known to be idle has
moved all its blocks (`Sound.settled`). -/

namespace AesAccelerator

/-- What the processor knows: which channels are idle, and the transfer from memory that has no
counterpart yet. -/
structure Known where
  dmaToDevice : Bool
  deviceToDma : Bool
  owed : Option Request

namespace Known

/-- Both channels are idle and nothing is owed. -/
def quiet : Known := ⟨true, true, none⟩

def next (k : Known) (i : Instr) : Known :=
  match i.action with
  | some (.whileBusy .dmaToDevice) => { k with dmaToDevice := true }
  | some (.whileBusy .deviceToDma) =>
      if k.owed = none then quiet else { k with deviceToDma := true }
  | some (.simpleTransfer addr length .dmaToDevice) =>
      { k with dmaToDevice := false, owed := some ⟨i.call, addr, length⟩ }
  | some (.simpleTransfer _ _ .deviceToDma) => { k with deviceToDma := false, owed := none }
  | _ => k

/-- A length of some whole blocks that the engine can count. -/
def Fits (p : Platform) (length : ℤ) : Prop :=
  16 ≤ length ∧ length ≤ AesHw.maxDmaSize p.lengthWidth

def Allows (k : Known) (p : Platform) (blocking : ℕ → Prop) (i : Instr) : Prop :=
  match i.action with
  | none => blocking i.call → k = quiet
  | some .reset => k = quiet
  | some (.whileBusy .dmaToDevice) => k.owed = none
  | some (.simpleTransfer _ length .dmaToDevice) =>
      k.dmaToDevice = true ∧ k.owed = none ∧ Fits p length
  | some (.simpleTransfer addr length .deviceToDma) =>
      k.deviceToDma = true ∧ k.owed = some ⟨i.call, addr, length⟩ ∧ Fits p length
  | _ => True

end Known

def Safe (p : Platform) (blocking : ℕ → Prop) : Known → List Instr → Prop
  | _, [] => True
  | k, i :: rest => k.Allows p blocking i ∧ Safe p blocking (k.next i) rest

/-- The transfers from memory that a program starts. -/
def Instr.read? (i : Instr) : Option Request :=
  match i.action with
  | some (.simpleTransfer addr length .dmaToDevice) => some ⟨i.call, addr, length⟩
  | _ => none

def readsOf (program : List Instr) : List Request := program.filterMap Instr.read?

theorem call_of_mem_readsOf {program : List Instr} {r : Request} (h : r ∈ readsOf program) :
    ∃ i ∈ program, i.call = r.call := by
  obtain ⟨i, hi, hr⟩ := List.mem_filterMap.mp h
  refine ⟨i, hi, ?_⟩
  obtain ⟨call, action⟩ := i
  unfold Instr.read? at hr
  split at hr
  · obtain rfl := Option.some.inj hr
    rfl
  · cases hr

theorem call_of_mem_beats {program : List Instr} {beat : DmaBeat}
    (h : beat ∈ (readsOf program).flatMap Request.beats) :
    ∃ i ∈ program, i.call = beat.request.call := by
  obtain ⟨r, hr, hbeat⟩ := List.mem_flatMap.mp h
  obtain ⟨index, -, rfl⟩ := List.mem_map.mp hbeat
  exact call_of_mem_readsOf hr

/-- After the return from a call, nothing more is done for it. -/
def Ends (program : List Instr) : Prop :=
  program.Pairwise fun i j => i.action = none → j.call ≠ i.call

/-- The knowledge after a program. -/
def Known.after (k : Known) (program : List Instr) : Known := program.foldl Known.next k

/-- The program is safe from the knowledge `k` and leads to the knowledge `k'`. -/
structure Leads (p : Platform) (blocking : ℕ → Prop) (k : Known) (program : List Instr)
    (k' : Known) : Prop where
  safe : Safe p blocking k program
  after : k.after program = k'

section leads
variable {p : Platform} {blocking : ℕ → Prop} {k k' k'' : Known}

theorem leads_nil (k : Known) : Leads p blocking k [] k := ⟨trivial, rfl⟩

theorem Leads.cons {i : Instr} {rest : List Instr} (hi : k.Allows p blocking i)
    (hrest : Leads p blocking (k.next i) rest k') : Leads p blocking k (i :: rest) k' :=
  ⟨⟨hi, hrest.safe⟩, hrest.after⟩

theorem Leads.append : ∀ {first second : List Instr} {k : Known}, Leads p blocking k first k' →
    Leads p blocking k' second k'' → Leads p blocking k (first ++ second) k''
  | [], _, _, h, h' => by
      obtain ⟨-, rfl⟩ := h
      exact h'
  | _ :: _, _, _, ⟨⟨hi, hsafe⟩, hafter⟩, h' => Leads.cons hi (Leads.append ⟨hsafe, hafter⟩ h')

end leads

namespace Board

/-- The knowledge is right. -/
structure Knows (b : Board) (k : Known) : Prop where
  dmaToDevice : k.dmaToDevice = true → b.dmaToDevice = none
  deviceToDma : k.deviceToDma = true → b.deviceToDma = none
  owed : b.reads = b.writes ++ k.owed.toList

/-! ### Engine and core -/

section engine
variable {p : Platform} {b b' : Board} {a : Actor}

theorem Flow.engine (hf : b.Flow) (ha : a ≠ .processor) (hs : step p a b = some b') : b'.Flow := by
  cases a with
  | processor => exact absurd rfl ha
  | dmaRead => exact hf.dmaRead hs
  | core => exact hf.core hs
  | dmaWrite => exact hf.dmaWrite hs

/-- What the engine and the core leave alone; and they start no transfer. -/
theorem engine_frame (ha : a ≠ .processor) (hs : step p a b = some b') :
    b'.program = b.program ∧ b'.reads = b.reads ∧ b'.writes = b.writes ∧ b'.refused = b.refused ∧
      b'.returned = b.returned ∧ b'.keyReg = b.keyReg ∧
      (b.dmaToDevice = none → b'.dmaToDevice = none) ∧
      (b.deviceToDma = none → b'.deviceToDma = none) := by
  cases a with
  | processor => exact absurd rfl ha
  | dmaRead =>
      obtain ⟨t, ht, -, -, rfl⟩ := dmaRead_iff.mp hs
      exact ⟨rfl, rfl, rfl, rfl, rfl, rfl, fun h => (by rw [ht] at h; cases h), id⟩
  | core =>
      obtain ⟨item, rest, -, rfl⟩ := core_iff.mp hs
      exact ⟨rfl, rfl, rfl, rfl, rfl, rfl, id, id⟩
  | dmaWrite =>
      obtain ⟨t, item, rest, ht, -, -, rfl⟩ := dmaWrite_iff.mp hs
      exact ⟨rfl, rfl, rfl, rfl, rfl, rfl, id, fun h => (by rw [ht] at h; cases h)⟩

theorem Knows.engine {k : Known} (hk : b.Knows k) (ha : a ≠ .processor)
    (hs : step p a b = some b') : b'.Knows k := by
  obtain ⟨-, hr, hw, -, -, -, hidle, hidle'⟩ := engine_frame ha hs
  exact ⟨fun h => hidle (hk.dmaToDevice h), fun h => hidle' (hk.deviceToDma h),
    by rw [hr, hw, hk.owed]⟩

end engine

/-! ### The processor -/

section processor
variable {p : Platform} {blocking : ℕ → Prop} {b b' : Board} {k : Known} {i : Instr}

/-- A transfer on a channel known to be idle is started. -/
theorem simpleTransfer_eq {r : Request} {channel : Channel} (hidle : b.busy channel = false)
    (hfits : Known.Fits p r.length) : b.simpleTransfer p r channel = b.start r channel := by
  obtain ⟨h₁, h₂⟩ := hfits
  unfold simpleTransfer
  apply if_neg
  simp only [hidle, Bool.false_or, Bool.or_eq_true, decide_eq_true_eq, not_or, not_lt]
  omega

theorem blocks_pos {r : Request} (hfits : Known.Fits p r.length) : 0 < r.blocks := by
  have := hfits.1
  unfold Request.blocks
  omega

theorem Flow.startRead (hf : b.Flow) {r : Request} (hidle : b.dmaToDevice = none)
    (hpos : 0 < r.blocks) : (b.start r .dmaToDevice).Flow where
  reading t ht := by
    obtain rfl := Option.some.inj ht
    exact hpos
  writing := hf.writing
  read := by
    have := hf.read
    rw [hidle, restOf, List.append_nil] at this
    simp [start, this, restOf, Transfer.rest_start]
  held := hf.held
  write := hf.write
  own := hf.own
  last := hf.last
  ahead := hf.ahead.trans (List.prefix_append _ _)

theorem Flow.startWrite (hf : b.Flow) {r : Request} (hidle : b.deviceToDma = none)
    (hpos : 0 < r.blocks) (howed : b.reads = b.writes ++ [r]) :
    (b.start r .deviceToDma).Flow where
  reading := hf.reading
  writing t ht := by
    obtain rfl := Option.some.inj ht
    exact hpos
  read := hf.read
  held := hf.held
  write := by
    have := hf.write
    rw [hidle, restOf, List.append_nil] at this
    simp [start, this, restOf, Transfer.rest_start]
  own := hf.own
  last := hf.last
  ahead := by
    show b.writes ++ [r] <+: b.reads
    rw [howed]

theorem reset_of_idle (hr : b.dmaToDevice = none) (hw : b.deviceToDma = none) :
    { b with dmaToDevice := none, deviceToDma := none } = b := by
  cases b
  cases hr
  cases hw
  rfl

/-- The state without the fields that the flow of blocks does not depend on. -/
theorem Flow.of_eq (hf : b.Flow) (keyReg : AesBlock) (program : List Instr) (returned : List ℕ) :
    Flow { b with keyReg := keyReg, program := program, returned := returned } :=
  ⟨hf.reading, hf.writing, hf.read, hf.held, hf.write, hf.own, hf.last, hf.ahead⟩

theorem Knows.of_eq (hk : b.Knows k) (keyReg : AesBlock) (program : List Instr)
    (returned : List ℕ) :
    Knows { b with keyReg := keyReg, program := program, returned := returned } k :=
  ⟨hk.dmaToDevice, hk.deviceToDma, hk.owed⟩

theorem Knows.reads_eq (hk : b.Knows k) (howed : k.owed = none) : b.reads = b.writes := by
  rw [hk.owed, howed, Option.toList_none, List.append_nil]

theorem Knows.wait (hf : b.Flow) (hk : b.Knows k) {call : ℕ} {channel : Channel}
    (hidle : b.busy channel = false) : b.Knows (k.next ⟨call, some (.whileBusy channel)⟩) := by
  cases channel with
  | dmaToDevice =>
      exact ⟨fun _ => by simpa [busy] using hidle, hk.deviceToDma, hk.owed⟩
  | deviceToDma =>
      have hidle : b.deviceToDma = none := by simpa [busy] using hidle
      simp only [Known.next]
      split_ifs with howed
      · have hrw := hk.reads_eq howed
        refine ⟨fun _ => (hf.drained hidle hrw).1, fun _ => hidle, ?_⟩
        rw [hrw]
        exact (List.append_nil _).symm
      · exact ⟨hk.dmaToDevice, fun _ => hidle, hk.owed⟩

theorem Knows.transfer (hf : b.Flow) (hk : b.Knows k) {call addr : ℕ} {length : ℤ}
    {channel : Channel}
    (hok : k.Allows p blocking ⟨call, some (.simpleTransfer addr length channel)⟩) :
    let b' := b.simpleTransfer p ⟨call, addr, length⟩ channel
    b'.Flow ∧ b'.Knows (k.next ⟨call, some (.simpleTransfer addr length channel)⟩) ∧
      b'.refused = b.refused ∧
      b'.reads = b.reads ++
        (Instr.read? ⟨call, some (.simpleTransfer addr length channel)⟩).toList ∧
      b'.writeLog = b.writeLog := by
  intro b'
  cases channel with
  | dmaToDevice =>
      obtain ⟨hkr, howed, hfits⟩ := hok
      have hidle := hk.dmaToDevice hkr
      have hb' : b' = _ := simpleTransfer_eq (by simp [busy, hidle]) hfits
      rw [hb']
      refine ⟨hf.startRead hidle (blocks_pos hfits), ⟨fun h => ?_, hk.deviceToDma, ?_⟩, rfl, rfl,
        rfl⟩
      · cases h
      · simp [start, Known.next, hk.reads_eq howed]
  | deviceToDma =>
      obtain ⟨hkw, howed, hfits⟩ := hok
      have hidle := hk.deviceToDma hkw
      have hrw : b.reads = b.writes ++ [⟨call, addr, length⟩] := by
        rw [hk.owed, howed, Option.toList_some]
      have hb' : b' = _ := simpleTransfer_eq (by simp [busy, hidle]) hfits
      rw [hb']
      refine ⟨hf.startWrite hidle (blocks_pos hfits) hrw, ⟨hk.dmaToDevice, fun h => ?_, ?_⟩, rfl,
        (List.append_nil _).symm, rfl⟩
      · cases h
      · simp [start, Known.next, hrw]

/-- An allowed action is done as the program expects, and the knowledge stays right. -/
theorem Knows.execute (hf : b.Flow) (hk : b.Knows k) (hok : k.Allows p blocking i)
    (hs : b.execute p i = some b') :
    b'.Flow ∧ b'.Knows (k.next i) ∧ b'.refused = b.refused ∧
      b'.reads = b.reads ++ i.read?.toList ∧ b'.writeLog = b.writeLog := by
  obtain ⟨call, action⟩ := i
  cases action with
  | none =>
      obtain rfl := Option.some.inj hs
      exact ⟨hf.of_eq _ _ _, hk.of_eq _ _ _, rfl, (List.append_nil _).symm, rfl⟩
  | some action =>
      cases action with
      | writeKey =>
          obtain rfl := Option.some.inj hs
          exact ⟨hf.of_eq _ _ _, hk.of_eq _ _ _, rfl, (List.append_nil _).symm, rfl⟩
      | dCacheFlushRange | dCacheInvalidateRange =>
          obtain rfl := Option.some.inj hs
          exact ⟨hf, hk, rfl, (List.append_nil _).symm, rfl⟩
      | reset =>
          obtain rfl := Option.some.inj hs
          have hq : k = .quiet := hok
          rw [reset_of_idle (hk.dmaToDevice (by rw [hq]; rfl)) (hk.deviceToDma (by rw [hq]; rfl))]
          exact ⟨hf, hk, rfl, (List.append_nil _).symm, rfl⟩
      | whileBusy channel =>
          simp only [Board.execute] at hs
          split_ifs at hs with hbusy
          obtain rfl := Option.some.inj hs
          exact ⟨hf, hk.wait hf (Bool.eq_false_iff.mpr hbusy), rfl, (List.append_nil _).symm, rfl⟩
      | simpleTransfer =>
          obtain rfl := Option.some.inj hs
          exact hk.transfer hf hok

end processor

/-! ### Runs of safe programs -/

/-- All beats of one call, in the order in which they are moved. -/
def beatsOf (call : ℕ) (beats : List DmaBeat) : List DmaBeat :=
  beats.filter fun beat => beat.request.call = call

theorem beatsOf_same {program : List Instr} {call : ℕ} (h : ∀ i ∈ program, i.call = call) :
    beatsOf call ((readsOf program).flatMap Request.beats) =
      (readsOf program).flatMap Request.beats := by
  apply List.filter_eq_self.mpr
  intro beat hbeat
  obtain ⟨i, hi, hcall⟩ := call_of_mem_beats hbeat
  rw [← hcall, h i hi, decide_eq_true rfl]

theorem beatsOf_other {program : List Instr} {call : ℕ} (h : ∀ i ∈ program, i.call ≠ call) :
    beatsOf call ((readsOf program).flatMap Request.beats) = [] := by
  apply List.filter_eq_nil_iff.mpr
  intro beat hbeat
  obtain ⟨i, hi, hcall⟩ := call_of_mem_beats hbeat
  rw [← hcall, decide_eq_true_eq]
  exact h i hi

/-- Every beat of the call has been written. -/
def Settled (b : Board) (all : List Request) (call : ℕ) : Prop :=
  beatsOf call (b.writeLog.map Prod.fst) = beatsOf call (all.flatMap Request.beats)

/-- The state in the middle of a safe program, of which `todo` is left; `all` are the transfers
from memory that it starts. -/
structure Sound (p : Platform) (blocking : ℕ → Prop) (all : List Request) (k : Known)
    (todo : List Instr) (b : Board) : Prop where
  flow : b.Flow
  knows : b.Knows k
  safe : Safe p blocking k todo
  ends : Ends todo
  refused : b.refused = []
  reads : b.reads ++ readsOf todo = all
  returned : ∀ call ∈ b.returned, (∀ i ∈ todo, i.call ≠ call) ∧
    (blocking call → b.Settled all call)

theorem writeLog_prefix {b : Board} (hf : b.Flow) : b.writeLog.map Prod.fst <+:
    b.reads.flatMap Request.beats := by
  obtain ⟨more, hmore⟩ := hf.ahead
  rw [← hmore, List.flatMap_append, ← hf.write, List.append_assoc]
  exact List.prefix_append _ _

/-- What has been written stays written. -/
theorem Settled.mono {b b' : Board} {all : List Request} {call : ℕ} (hset : b.Settled all call)
    (hlog : b.writeLog <+: b'.writeLog)
    (hall : b'.writeLog.map Prod.fst <+: all.flatMap Request.beats) : b'.Settled all call := by
  have h₁ : beatsOf call (b.writeLog.map Prod.fst) <+: beatsOf call (b'.writeLog.map Prod.fst) :=
    (hlog.map _).filter _
  have h₂ : beatsOf call (b'.writeLog.map Prod.fst) <+: beatsOf call (all.flatMap Request.beats) :=
    hall.filter _
  rw [hset] at h₁
  exact h₂.eq_of_length_le h₁.length_le

section sound
variable {p : Platform} {blocking : ℕ → Prop} {all : List Request} {b b' : Board} {k : Known}
  {todo : List Instr}

theorem Sound.writeLog_prefix (hs : Sound p blocking all k todo b) :
    b.writeLog.map Prod.fst <+: all.flatMap Request.beats := by
  apply (Board.writeLog_prefix hs.flow).trans
  rw [← hs.reads, List.flatMap_append]
  exact List.prefix_append _ _

theorem Sound.engine (hs : Sound p blocking all k todo b) {a : Actor} (ha : a ≠ .processor)
    (hstep : step p a b = some b') : Sound p blocking all k todo b' := by
  obtain ⟨-, hr, -, href, hret, -, -, -⟩ := engine_frame ha hstep
  have hflow := hs.flow.engine ha hstep
  have hlog : b.writeLog <+: b'.writeLog := by
    cases a with
    | processor => exact absurd rfl ha
    | dmaRead => obtain ⟨t, -, -, -, rfl⟩ := dmaRead_iff.mp hstep; exact List.prefix_rfl
    | core => obtain ⟨item, rest, -, rfl⟩ := core_iff.mp hstep; exact List.prefix_rfl
    | dmaWrite =>
        obtain ⟨t, item, rest, -, -, -, rfl⟩ := dmaWrite_iff.mp hstep
        exact List.prefix_append _ _
  have hall : b'.writeLog.map Prod.fst <+: all.flatMap Request.beats := by
    apply (Board.writeLog_prefix hflow).trans
    rw [hr, ← hs.reads, List.flatMap_append]
    exact List.prefix_append _ _
  refine ⟨hflow, hs.knows.engine ha hstep, hs.safe, hs.ends, href.trans hs.refused, ?_, ?_⟩
  · rw [hr, hs.reads]
  · intro call hcall
    rw [hret] at hcall
    obtain ⟨hdone, hset⟩ := hs.returned call hcall
    exact ⟨hdone, fun hb => (hset hb).mono hlog hall⟩

/-- A call that returns with both channels known to be idle has moved all its blocks. -/
theorem Sound.settled {i : Instr} (hs : Sound p blocking all k (i :: todo) b)
    (hret : i.action = none) (hb : blocking i.call) : b.Settled all i.call := by
  have hquiet : k = .quiet := by
    have hok := hs.safe.1
    unfold Known.Allows at hok
    rw [hret] at hok
    exact hok hb
  have hidle : b.deviceToDma = none := hs.knows.deviceToDma (by rw [hquiet]; rfl)
  have hrw : b.reads = b.writes := hs.knows.reads_eq (by rw [hquiet]; rfl)
  have hnone : i.read? = none := by rw [Instr.read?, hret]
  have hlater := beatsOf_other fun j hj => (List.pairwise_cons.mp hs.ends).1 j hj hret
  unfold Settled
  rw [(hs.flow.drained hidle hrw).2.2.2, ← hs.reads, readsOf, List.filterMap_cons_none hnone,
    List.flatMap_append, beatsOf, beatsOf, List.filter_append]
  exact ((congrArg _ hlater).trans (List.append_nil _)).symm

theorem Sound.processor {i : Instr} (hs : Sound p blocking all k (i :: todo) b)
    (program : List Instr) (hexec : { b with program := program }.execute p i = some b') :
    Sound p blocking all (k.next i) todo b' := by
  obtain ⟨hflow, hknows, href, hreads, hlog⟩ :=
    (hs.knows.of_eq b.keyReg program b.returned).execute (hs.flow.of_eq b.keyReg program b.returned)
      hs.safe.1 hexec
  have hret := (execute_frame hexec).2.2.2.2.2.2
  have hsettled : ∀ call, b.Settled all call → b'.Settled all call := by
    intro call hset
    unfold Settled
    rw [hlog]
    exact hset
  refine ⟨hflow, hknows, hs.safe.2, hs.ends.of_cons, href.trans hs.refused, ?_, ?_⟩
  · rw [hreads, ← hs.reads, List.append_assoc]
    congr 1
    cases hr : i.read? with
    | none => rw [readsOf, readsOf, List.filterMap_cons_none hr]; rfl
    | some r => rw [readsOf, readsOf, List.filterMap_cons_some hr]; rfl
  · intro call hcall
    rw [hret, List.mem_append] at hcall
    rcases hcall with hcall | hcall
    · obtain ⟨hdone, hset⟩ := hs.returned call hcall
      exact ⟨fun j hj => hdone j (List.mem_cons_of_mem _ hj), fun hb => hsettled _ (hset hb)⟩
    · have hnone : i.action = none ∧ call = i.call := by
        unfold Instr.returns at hcall
        split at hcall
        · exact ⟨‹_›, List.mem_singleton.mp hcall⟩
        · cases hcall
      obtain ⟨hnone, rfl⟩ := hnone
      exact ⟨fun j hj => (List.pairwise_cons.mp hs.ends).1 j hj hnone,
        fun hb => hsettled _ (hs.settled hnone hb)⟩

/-- A safe program that starts with nothing under way, whatever comes after it. -/
theorem sound_idle (memory : ℕ → BitVec 8) (keyReg : AesBlock) (program : List Instr)
    (hsafe : Safe p blocking .quiet todo) (hends : Ends todo) :
    Sound p blocking (readsOf todo) .quiet todo (idle memory keyReg program) where
  flow := flow_idle memory keyReg program
  knows := ⟨fun _ => rfl, fun _ => rfl, rfl⟩
  safe := hsafe
  ends := hends
  refused := rfl
  reads := rfl
  returned _ h := by cases h

/-- **A safe program stays sound** in every interleaving. -/
theorem sound_step {a : Actor} (hs : ∃ k, Sound p blocking all k b.program b)
    (hstep : step p a b = some b') : ∃ k, Sound p blocking all k b'.program b' := by
  obtain ⟨k, hs⟩ := hs
  by_cases ha : a = .processor
  · subst ha
    obtain ⟨i, rest, hp, hexec⟩ := processor_iff.mp hstep
    rw [hp] at hs
    rw [(execute_frame hexec).1]
    exact ⟨k.next i, hs.processor rest hexec⟩
  · rw [(engine_frame ha hstep).1]
    exact ⟨k, hs.engine ha hstep⟩

/-- Every return in the program is recorded when it is done. -/
theorem returned_step {a : Actor} (hstep : Board.step p a b = some b') :
    b'.returned ++ b'.program.flatMap Instr.returns =
      b.returned ++ b.program.flatMap Instr.returns := by
  by_cases ha : a = .processor
  · subst ha
    obtain ⟨i, rest, hp, hexec⟩ := processor_iff.mp hstep
    obtain ⟨hprogram, -, -, -, -, -, hret⟩ := execute_frame hexec
    rw [hprogram, hret, hp, List.flatMap_cons, List.append_assoc]
  · obtain ⟨hprogram, -, -, -, hret, -⟩ := engine_frame ha hstep
    rw [hprogram, hret]

/-- Until the program is at `rest`, some step goes on with it. -/
theorem Sound.progress {rest : List Instr} (hp : b.program = todo ++ rest) (hne : todo ≠ [])
    (hs : Sound p blocking all k todo b) : ∃ a b', Board.step p a b = some b' ∧
      ∃ k' todo', b'.program = todo' ++ rest ∧ k'.after todo' = k.after todo ∧
        Sound p blocking all k' todo' b' := by
  cases todo with
  | nil => exact absurd rfl hne
  | cons i todo =>
      cases hexec : { b with program := todo ++ rest }.execute p i with
      | some b' =>
          exact ⟨.processor, b', processor_iff.mpr ⟨i, todo ++ rest, hp, hexec⟩, k.next i, todo,
            (execute_frame hexec).1, rfl, hs.processor (todo ++ rest) hexec⟩
      | none =>
          -- the processor waits for a busy channel
          have hprogress : ∃ a b', a ≠ .processor ∧ Board.step p a b = some b' := by
            obtain ⟨call, action⟩ := i
            cases action with
            | none => exact absurd hexec (Option.some_ne_none _)
            | some action =>
                cases action with
                | writeKey | reset | simpleTransfer | dCacheFlushRange | dCacheInvalidateRange =>
                    exact absurd hexec (Option.some_ne_none _)
                | whileBusy channel =>
                    simp only [execute] at hexec
                    split_ifs at hexec with hbusy
                    cases channel with
                    | deviceToDma =>
                        obtain ⟨t, ht⟩ := Option.isSome_iff_exists.mp hbusy
                        exact hs.flow.progress_write ht
                    | dmaToDevice =>
                        obtain ⟨t, ht⟩ := Option.isSome_iff_exists.mp hbusy
                        exact hs.flow.progress_read (hs.knows.reads_eq hs.safe.1) ht
          obtain ⟨a, b', ha, hstep⟩ := hprogress
          refine ⟨a, b', hstep, k, i :: todo, ?_, rfl, hs.engine ha hstep⟩
          rw [(engine_frame ha hstep).1, hp]

/-- The program can always be brought to `rest`. -/
theorem Sound.advances {rest : List Instr} (hp : b.program = todo ++ rest)
    (hs : Sound p blocking all k todo b) : ∃ b', Reaches p b b' ∧ b'.program = rest ∧
      Sound p blocking all (k.after todo) [] b' := by
  let P : Board → Prop := fun b => ∃ k' todo', b.program = todo' ++ rest ∧
    k'.after todo' = k.after todo ∧ Sound p blocking all k' todo' b
  have hgoes : ∀ b, P b → ¬ b.program = rest →
      ∃ a b', Board.step p a b = some b' ∧ P b' ∧ b'.work < b.work := by
    rintro b ⟨k', todo', hp, hafter, hs⟩ hG
    have hne : todo' ≠ [] := fun h => hG (by rw [hp, h, List.nil_append])
    obtain ⟨a, b', hstep, k'', todo'', hp', hafter', hs'⟩ := hs.progress hp hne
    exact ⟨a, b', hstep, ⟨k'', todo'', hp', hafter'.trans hafter, hs'⟩, work_lt hstep⟩
  obtain ⟨b', hreach, ⟨k', todo', hp', hafter, hs'⟩, hrest⟩ :=
    Interleaving.reaches_of_measure work hgoes ⟨k, todo, hp, rfl, hs⟩
  have hnil : todo' = [] := by
    rw [hrest] at hp'
    exact List.append_left_eq_self.mp hp'.symm
  subst hnil
  rw [← hafter]
  exact ⟨b', hreach, hrest, hs'⟩

end sound

end Board

end AesAccelerator

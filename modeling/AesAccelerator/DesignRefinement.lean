import AesAccelerator.Design

/-! # The block design refines the board

`Board` puts a queue in the place of the core.  This is justified here: whatever the clocked core,
the buffers around it, the engine and the processor do, every state of the block design is a state
that the board can reach (`reaches_toBoard`), when the program is safe and writes the key only with
both channels known to be idle (`QuietKeys`).

The argument goes round in a circle that the clock breaks: the core handles its streams as promised
because keys are written only when it is empty, and it is known to be empty because up to this
cycle the design has done what the board can do. -/

namespace AesAccelerator

open ShiftPipeline

/-! ### The core as a queue -/

namespace Run

section queue
variable [Rom256x1] {x : Run} {n : ℕ}

/-- In one cycle, the oldest beat leaves the core if it is taken, and an accepted one joins. -/
theorem occupants_step (h : x.rst n = false) (hgood : x.takenInKeyStall n = false)
    (hsh : x.Shadowed n) : (occupants (x.pipe (n + 1))).map Passenger.beat =
      ((if x.delivers n then (occupants (x.pipe n)).tail else occupants (x.pipe n)).map
        Passenger.beat) ++ if x.accepts n then [x.beat n] else [] := by
  rw [delivers_eq h hgood hsh, accepts_eq]
  cases hs : x.stalls n with
  | true => simp [pipe_stall h hs]
  | false =>
      have hmet : (occupants (x.pipe (n + 1))).map Passenger.beat =
          (occupants (advance (x.entering n) (x.pipe n))).map Passenger.beat := by
        rw [funext (pipe_move h hs)]
        exact occupants_map fun _ _ => rfl
      have hqueue := occupants_advance (x.entering n) (x.pipe n)
      have hentering : (x.entering n).toList.map Passenger.beat =
          if x.offers n then [x.beat n] else [] := by
        rw [entering_toList]
        split <;> rfl
      rw [hmet]
      rw [occupants_eq_last (x.pipe n)] at hqueue ⊢
      cases hlast : x.pipe n (Fin.last 10) with
      | none =>
          rw [hlast] at hqueue
          simp only [Option.toList_none, List.nil_append] at hqueue
          simp [hqueue, hentering]
      | some q =>
          rw [hlast, Option.toList_some, List.singleton_append, List.singleton_append,
            List.cons_append] at hqueue
          simp [(List.cons.inj hqueue).2, hentering]

/-- What is taken is the oldest beat, encrypted. -/
theorem taken_oldest (hsh : x.Shadowed n) (hu : x.Undisturbed Beat.aesKey n)
    (hd : x.delivers n = true) : ∃ q rest, occupants (x.pipe n) = q :: rest ∧
      (x.state n).writeTdata = Fips197.cipher q.beat.aesKey q.beat.tdata ∧
      (x.state n).writeTlast = q.beat.tlast := by
  have hvalid : (x.state n).writeTvalid = (x.pipe n (Fin.last 10)).isSome := (hsh _).1
  rw [delivers, hvalid, Bool.and_eq_true] at hd
  obtain ⟨q, hq⟩ := Option.isSome_iff_exists.mp hd.1
  have hout := taken_eq hsh hq
  have hmet := (hu.keyed.inside _ q hq).1
  rw [Passenger.output, hmet, Fin.val_last, image_schedule_eq_cipher] at hout
  refine ⟨q, occupants fun k => x.pipe n k.castSucc, ?_, congrArg Prod.fst hout,
    congrArg Prod.snd hout⟩
  rw [occupants_eq_last, hq]
  rfl

/-- A packet is open when the last accepted beat does not end it. -/
theorem packetOpen_eq : ∀ n, x.packetOpen n =
    ((x.accepted n).getLast?.map fun b => !b.tlast).getD false
  | 0 => rfl
  | n + 1 => by
      rw [packetOpen, accepted]
      cases h : x.rst n with
      | true => rfl
      | false =>
          cases hacc : x.accepts n with
          | true => simp [beat]
          | false => simp [packetOpen_eq n]

end queue

end Run

/-! ### The board at a moment of the design -/

namespace Board

section refill
variable (p : Platform) (b : Board) (entering : List Item)

theorem simpleTransfer_refill (r : Request) (channel : Channel) :
    (b.refill entering).simpleTransfer p r channel =
      (b.simpleTransfer p r channel).refill entering := by
  have hbusy : (b.refill entering).busy channel = b.busy channel := by cases channel <;> rfl
  unfold simpleTransfer
  rw [hbusy]
  split_ifs
  · rfl
  · cases channel <;> rfl

theorem execute_refill (i : Instr) :
    (b.refill entering).execute p i = (b.execute p i).map (refill entering) := by
  obtain ⟨call, action⟩ := i
  cases action with
  | none => rfl
  | some action =>
      cases action with
      | writeKey | reset | dCacheFlushRange | dCacheInvalidateRange => rfl
      | simpleTransfer addr length channel =>
          exact congrArg some (simpleTransfer_refill p b entering ⟨call, addr, length⟩ channel)
      | whileBusy channel =>
          have hbusy : (b.refill entering).busy channel = b.busy channel := by
            cases channel <;> rfl
          simp only [execute, hbusy]
          split_ifs <;> rfl

/-- The processor does not look at the blocks before the core. -/
theorem processor_refill :
    (b.refill entering).processor p = (b.processor p).map (refill entering) := by
  have hprogram : (b.refill entering).program = b.program := rfl
  unfold processor
  rw [hprogram]
  cases b.program with
  | nil => rfl
  | cons i rest => exact execute_refill p { b with program := rest } entering i

end refill

end Board

namespace Design

/-! ### Steps of the design as steps of the board -/

section steps
variable {d : Buffers} {s : Design} {b' : Board}

theorem step_of_processor (hp : s.board.processor d.platform = some b') :
    Board.step d.platform .processor s.toBoard = some { s with board := b' }.toBoard := by
  obtain ⟨i, rest, -, hexec⟩ := Board.processor_iff.mp hp
  show (s.board.refill _).processor d.platform = some (b'.refill (s.inside ++ b'.entering))
  rw [Board.processor_refill, hp, (Board.execute_frame hexec).2.2.1]
  rfl

theorem step_of_fetch (hinside : s.inside.length ≤ 11) (hroom : s.board.leaving.length ≤ d.behind)
    (hf : s.board.fetch d = some b') :
    Board.step d.platform .dmaRead s.toBoard = some { s with board := b' }.toBoard := by
  obtain ⟨t, ht, hlt, hfits, rfl⟩ := Board.fetch_iff.mp hf
  refine Board.dmaRead_iff.mpr ⟨t, ht, hlt, ?_, ?_⟩
  · show (s.inside ++ s.board.entering).length + s.board.leaving.length < 11 + d.before + d.behind
    rw [List.length_append]
    omega
  · simp [toBoard, Board.refill, Board.afterRead, Board.readItem]

theorem step_of_store (hw : s.board.dmaWrite = some b') :
    Board.step d.platform .dmaWrite s.toBoard = some { s with board := b' }.toBoard := by
  obtain ⟨t, item, rest, ht, hleaving, hlt, rfl⟩ := Board.dmaWrite_iff.mp hw
  exact Board.dmaWrite_iff.mpr ⟨t, item, rest, ht, hleaving, hlt, rfl⟩

theorem act_reaches (hinside : s.inside.length ≤ 11) (hroom : s.board.leaving.length ≤ d.behind)
    (a : Activity) : Board.Reaches d.platform s.toBoard (s.act d a).toBoard := by
  cases a with
  | processor =>
      unfold act
      split_ifs
      · exact Interleaving.Reaches.refl _
      · cases hp : s.board.processor d.platform with
        | none => exact Interleaving.Reaches.refl _
        | some b' => exact .head (step_of_processor hp) (Interleaving.Reaches.refl _)
  | fetch =>
      cases hf : s.board.fetch d with
      | none =>
          rw [act, hf]
          exact Interleaving.Reaches.refl _
      | some b' =>
          rw [act, hf]
          exact .head (step_of_fetch hinside hroom hf) (Interleaving.Reaches.refl _)
  | store =>
      cases hw : s.board.dmaWrite with
      | none =>
          rw [act, hw]
          exact Interleaving.Reaches.refl _
      | some b' =>
          rw [act, hw]
          exact .head (step_of_store hw) (Interleaving.Reaches.refl _)

/-- The last part of a key write is the processor's step. -/
theorem step_of_writeKey (hkey : s.board.keyToWrite.isSome = true) :
    Board.step d.platform .processor s.toBoard = some (s.writeKey d .last).toBoard := by
  obtain ⟨key, hkey⟩ := Option.isSome_iff_exists.mp hkey
  obtain ⟨call, rest, hprogram⟩ := Board.keyToWrite_iff.mp hkey
  have hstep : s.board.processor d.platform =
      some { s.board with program := rest, keyReg := key } := by
    rw [Board.processor, hprogram]
    rfl
  unfold writeKey
  rw [step_of_processor hstep, hkey]
  simp only [hstep, Option.getD_some]
  rfl

theorem writeKey_reaches (write : KeyWrite) :
    Board.Reaches d.platform s.toBoard (s.writeKey d write).toBoard := by
  cases hkey : s.board.keyToWrite with
  | none =>
      unfold writeKey
      rw [hkey]
      exact Interleaving.Reaches.refl _
  | some key =>
      cases write with
      | wait | part =>
          unfold writeKey
          rw [hkey]
          exact Interleaving.Reaches.refl _
      | last =>
          exact .head (step_of_writeKey (by rw [hkey]; rfl)) (Interleaving.Reaches.refl _)

/-- A block that is accepted stays in the same queue. -/
theorem stream_toBoard [Rom256x1] {c : Cycle} : (s.stream d c).toBoard =
    { s.board with
      entering := (if s.delivers d c then s.inside.tail else s.inside) ++ s.board.entering
      leaving := if s.delivers d c then s.board.leaving ++ [s.output] else s.board.leaving } := by
  have hqueue : (if s.accepts d c then s.board.entering.take 1 else []) ++
      (if s.accepts d c then s.board.entering.tail else s.board.entering) = s.board.entering := by
    split_ifs
    · rw [← List.drop_one, List.take_append_drop]
    · rfl
  unfold toBoard Board.refill
  simp only [Design.stream, List.append_assoc, hqueue]

end steps

/-! ### The record of the design -/

/-- The block as it is on the streams. -/
def onStream (i : Item) : AesMatrix × Bool := (stateOf i.data, i.tlast)

/-- At the start of cycle `m` of the run of the core, the record of the design is right. -/
structure Linked (x : Run) [Rom256x1] (m : ℕ) (d : Buffers) (s : Design) : Prop where
  inside : ((occupants (x.pipe m)).map Passenger.beat).map (fun b => (b.tdata, b.tlast)) =
    s.inside.map onStream
  /-- The key has not changed since the blocks in the core were accepted. -/
  keyed : ∀ b ∈ (occupants (x.pipe m)).map Passenger.beat, b.aesKey = stateOf s.board.keyReg
  fetched : (x.accepted m).map Beat.tlast ++ s.board.entering.map Item.tlast =
    s.board.readLog.map Item.tlast
  last : ∀ i ∈ s.board.readLog, i.tlast = i.origin.last
  aesKey : s.board.keyToWrite.isSome = false → s.aesKey = stateOf s.board.keyReg
  room : s.board.leaving.length ≤ d.behind

section act
variable [Rom256x1] {x : Run} {m : ℕ} {d : Buffers} {s : Design}

theorem Linked.inside_length (hl : Linked x m d s) :
    s.inside.length = (occupants (x.pipe m)).length := by
  have hlength := congrArg List.length hl.inside
  simp only [List.length_map] at hlength
  exact hlength.symm

theorem Linked.inside_le (hl : Linked x m d s) : s.inside.length ≤ 11 := by
  rw [hl.inside_length]
  exact length_occupants_le _

omit [Rom256x1] in
theorem processor_frame {b b' : Board} (hp : b.processor d.platform = some b') :
    b'.entering = b.entering ∧ b'.leaving = b.leaving ∧ b'.readLog = b.readLog ∧
      (b.keyToWrite.isSome = false → b'.keyReg = b.keyReg) := by
  obtain ⟨i, rest, hprogram, hexec⟩ := Board.processor_iff.mp hp
  obtain ⟨-, -, hentering, hleaving, hread, -⟩ := Board.execute_frame hexec
  refine ⟨hentering, hleaving, hread, fun hkey => ?_⟩
  refine Board.execute_keyReg (b := { b with program := rest }) (fun key hi => ?_) hexec
  obtain ⟨call, action⟩ := i
  obtain rfl : action = some (.writeKey key) := hi
  rw [Board.keyToWrite, hprogram] at hkey
  cases hkey

theorem Linked.act (hl : Linked x m d s) (a : Activity) : Linked x m d (s.act d a) := by
  cases a with
  | processor =>
      cases hkey : s.board.keyToWrite.isSome with
      | true =>
          rw [Design.act, if_pos hkey]
          exact hl
      | false =>
          rw [Design.act, if_neg (by simp [hkey])]
          cases hp : s.board.processor d.platform with
          | none => exact hl
          | some b' =>
              obtain ⟨hentering, hleaving, hread, hkeyReg⟩ := processor_frame hp
              have hkeyReg := hkeyReg hkey
              refine ⟨hl.inside, ?_, ?_, ?_, fun _ => ?_, ?_⟩
              · show ∀ b ∈ _, _ = stateOf b'.keyReg
                rw [hkeyReg]
                exact hl.keyed
              · show _ ++ b'.entering.map Item.tlast = b'.readLog.map Item.tlast
                rw [hentering, hread]
                exact hl.fetched
              · show ∀ i ∈ b'.readLog, _
                rw [hread]
                exact hl.last
              · show s.aesKey = stateOf b'.keyReg
                rw [hkeyReg]
                exact hl.aesKey hkey
              · show b'.leaving.length ≤ _
                rw [hleaving]
                exact hl.room
  | fetch =>
      rw [Design.act]
      cases hf : s.board.fetch d with
      | none => exact hl
      | some b' =>
          obtain ⟨t, -, -, -, rfl⟩ := Board.fetch_iff.mp hf
          refine ⟨hl.inside, hl.keyed, ?_, ?_, hl.aesKey, hl.room⟩
          · show _ ++ (s.board.entering ++ [s.board.readItem t]).map Item.tlast =
              (s.board.readLog ++ [s.board.readItem t]).map Item.tlast
            rw [List.map_append, List.map_append, ← List.append_assoc, hl.fetched]
          · intro i hi
            rcases List.mem_append.mp hi with hi | hi
            · exact hl.last i hi
            · obtain rfl := List.mem_singleton.mp hi
              rfl
  | store =>
      rw [Design.act]
      cases hw : s.board.dmaWrite with
      | none => exact hl
      | some b' =>
          obtain ⟨t, item, rest, -, hleaving, -, rfl⟩ := Board.dmaWrite_iff.mp hw
          refine ⟨hl.inside, hl.keyed, hl.fetched, hl.last, hl.aesKey, ?_⟩
          have hroom := hl.room
          rw [hleaving, List.length_cons] at hroom
          exact Nat.le_of_succ_le hroom

theorem Linked.acts (hl : Linked x m d s) (activities : List Activity) :
    Linked x m d (activities.foldl (Design.act d) s) ∧
      Board.Reaches d.platform s.toBoard (activities.foldl (Design.act d) s).toBoard :=
  foldl_act (P := fun s' => Linked x m d s' ∧ Board.Reaches d.platform s.toBoard s'.toBoard)
    (fun _ a h => ⟨h.1.act a, h.2.trans (act_reaches h.1.inside_le h.1.room a)⟩) activities
    ⟨hl, Interleaving.Reaches.refl _⟩

end act

/-! ### One clock edge -/

section edge
variable [Rom256x1] {d : Buffers} {memory : ℕ → BitVec 8} {keyReg : AesBlock}
  {program : List Instr}

omit [Rom256x1] in
theorem aesKeyWrite_keyToWrite {s : Design} {c : Cycle} (h : s.aesKeyWrite c = true) :
    s.board.keyToWrite.isSome = true := by
  unfold aesKeyWrite at h
  split at h
  · cases h
  all_goals simp [*]

section quiet
variable {x : Run} {m : ℕ} {s : Design} (ho : Orderly d.platform program)
  (hreach : Board.Reaches d.platform (Board.idle memory keyReg program) s.toBoard)
  (hkey : s.board.keyToWrite.isSome = true)
include ho hreach hkey

omit [Rom256x1] in
/-- Where the processor is about to write a key, nothing is in the core or in the buffers. -/
theorem quiet : s.toBoard.Flow ∧ s.board.dmaToDevice = none ∧ s.inside = [] ∧
    s.board.entering = [] := by
  have hkey' : s.toBoard.keyToWrite.isSome = true := hkey
  obtain ⟨hflow, hread, -, hentering⟩ := Board.quiet_of_keyToWrite ho hreach hkey'
  obtain ⟨hinside, hentering⟩ := List.append_eq_nil_iff.mp hentering
  exact ⟨hflow, hread, hinside, hentering⟩

theorem Linked.occupants_eq_nil (hl : Linked x m d s) : occupants (x.pipe m) = [] := by
  have hinside := hl.inside
  rw [(quiet ho hreach hkey).2.2.1, List.map_nil, List.map_eq_nil_iff,
    List.map_eq_nil_iff] at hinside
  exact hinside

/-- What the core asks of a source that writes keys. -/
theorem Linked.quietWrite (hl : Linked x m d s) (hu : x.Undisturbed Beat.aesKey m) :
    x.packetOpen m = false ∧ (x.delivered m).length = (x.accepted m).length := by
  obtain ⟨hflow, hread, -, hentering⟩ := quiet ho hreach hkey
  constructor
  · have hfetched := hl.fetched
    rw [hentering, List.map_nil, List.append_nil] at hfetched
    have hlog : s.board.readLog.map Item.origin = s.board.reads.flatMap Request.beats := by
      have := hflow.read
      rwa [show s.toBoard.dmaToDevice = none from hread, restOf, List.append_nil] at this
    have hlast := congrArg List.getLast? hfetched
    rw [List.getLast?_map, List.getLast?_map] at hlast
    rw [Run.packetOpen_eq]
    cases hread : s.board.readLog.getLast? with
    | none =>
        rw [hread, Option.map_none, Option.map_eq_none_iff] at hlast
        rw [hlast]
        rfl
    | some i =>
        rw [hread, Option.map_some] at hlast
        obtain ⟨b, hb, htlast⟩ := Option.map_eq_some_iff.mp hlast
        have hmem : i ∈ s.board.readLog := List.mem_of_getLast? hread
        have horigin : (s.board.reads.flatMap Request.beats).getLast? = some i.origin := by
          rw [← hlog, List.getLast?_map, hread]
          rfl
        have htrue : b.tlast = true := by
          rw [htlast, hl.last i hmem]
          exact Board.last_of_getLast horigin
        rw [hb, Option.map_some, htrue]
        rfl
  · have hocc := hl.occupants_eq_nil ho hreach hkey
    rw [hu.taken, List.length_map, ← x.passengers_beats, List.length_map, Run.passengers, hocc,
      List.append_nil]

end quiet

/-- The processor writes the key. -/
theorem Linked.writeKey {x : Run} {m : ℕ} {s : Design} (ho : Orderly d.platform program)
    (hreach : Board.Reaches d.platform (Board.idle memory keyReg program) s.toBoard)
    (hl : Linked x m d s) (write : KeyWrite) : Linked x m d (s.writeKey d write) := by
  cases hkey : s.board.keyToWrite with
  | none =>
      unfold Design.writeKey
      rw [hkey]
      exact hl
  | some key =>
      have hsome : s.board.keyToWrite.isSome = true := by rw [hkey]; rfl
      cases write with
      | wait =>
          unfold Design.writeKey
          rw [hkey]
          exact hl
      | part aesKey =>
          unfold Design.writeKey
          rw [hkey]
          refine ⟨hl.inside, hl.keyed, hl.fetched, hl.last, fun hnone => ?_, hl.room⟩
          have hnone : s.board.keyToWrite.isSome = false := hnone
          rw [hkey] at hnone
          cases hnone
      | last =>
          obtain ⟨call, rest, hprogram⟩ := Board.keyToWrite_iff.mp hkey
          have hstep : s.board.processor d.platform =
              some { s.board with program := rest, keyReg := key } := by
            rw [Board.processor, hprogram]
            rfl
          unfold Design.writeKey
          rw [hkey]
          simp only [hstep, Option.getD_some]
          refine ⟨hl.inside, ?_, hl.fetched, hl.last, fun _ => rfl, hl.room⟩
          rw [hl.occupants_eq_nil ho hreach hsome]
          exact fun b hb => (List.not_mem_nil hb).elim

/-- In cycle `m` the core of the run is the one in the design. -/
structure Runs (x : Run) (m : ℕ) (d : Buffers) (s : Design) (c : Cycle) : Prop where
  rst : x.rst m = false
  ports : x.ports m = s.corePorts d c
  core : x.state m = s.aesUnit

theorem Runs.accepts {x : Run} {m : ℕ} {s : Design} {c : Cycle} (hr : Runs x m d s c) :
    x.accepts m = s.accepts d c := by
  rw [Run.accepts, hr.ports, hr.core]
  rfl

theorem Runs.delivers {x : Run} {m : ℕ} {s : Design} {c : Cycle} (hr : Runs x m d s c) :
    x.delivers m = s.delivers d c := by
  rw [Run.delivers, hr.ports, hr.core]
  rfl

/-- The beat that is accepted is the oldest block in the buffer, under the key in the register. -/
theorem Runs.beat {x : Run} {m : ℕ} {s : Design} {c : Cycle} (hr : Runs x m d s c)
    (ho : Orderly d.platform program)
    (hreach : Board.Reaches d.platform (Board.idle memory keyReg program) s.toBoard)
    (hl : Linked x m d s) (hacc : s.accepts d c = true) :
    ∃ i rest, s.board.entering = i :: rest ∧ ((x.beat m).tdata, (x.beat m).tlast) = onStream i ∧
      (x.beat m).aesKey = stateOf s.board.keyReg := by
  cases hentering : s.board.entering with
  | nil => simp [Design.accepts, corePorts, hentering] at hacc
  | cons i rest =>
      obtain ⟨-, hdata, hlast⟩ := corePorts_of_cons (d := d) (c := c) hentering
      rw [← hr.ports] at hdata hlast
      refine ⟨i, rest, rfl, Prod.ext hdata hlast, ?_⟩
      have hnone : s.board.keyToWrite.isSome = false := by
        by_contra hkey
        rw [(quiet ho hreach ((Bool.not_eq_false _).mp hkey)).2.2.2] at hentering
        cases hentering
      rw [← hl.aesKey hnone]
      exact congrArg CorePorts.aesKey hr.ports

/-- The block that is taken is the oldest one in the core, encrypted with the key in the
register. -/
theorem Runs.output {x : Run} {m : ℕ} {s : Design} {c : Cycle} (hr : Runs x m d s c)
    (hl : Linked x m d s) (hsh : x.Shadowed m) (hu : x.Undisturbed Beat.aesKey m) (hd : s.delivers d c = true) :
    ∃ i rest, s.inside = i :: rest ∧
      s.output = { i with data := d.platform.encrypt s.board.keyReg i.data } := by
  rw [← hr.delivers] at hd
  obtain ⟨q, rest, hocc, hdata, hlast⟩ := Run.taken_oldest hsh hu hd
  have hinside := hl.inside
  rw [hocc, List.map_cons, List.map_cons] at hinside
  cases hs : s.inside with
  | nil =>
      rw [hs] at hinside
      cases hinside
  | cons i more =>
      rw [hs, List.map_cons] at hinside
      obtain ⟨hi, -⟩ := List.cons.inj hinside
      have hkey : q.beat.aesKey = stateOf s.board.keyReg :=
        hl.keyed _ (by rw [hocc]; exact List.mem_cons_self)
      have htdata : q.beat.tdata = stateOf i.data := congrArg Prod.fst hi
      have htlast : q.beat.tlast = i.tlast := congrArg Prod.snd hi
      refine ⟨i, more, rfl, ?_⟩
      rw [hr.core, hkey, htdata] at hdata
      rw [hr.core, htlast] at hlast
      unfold Design.output
      rw [hs, hdata, hlast]
      rfl

/-- The two streams at a clock edge. -/
theorem Linked.stream {x : Run} {m : ℕ} {s : Design} {c : Cycle} (hr : Runs x m d s c)
    (ho : Orderly d.platform program)
    (hreach : Board.Reaches d.platform (Board.idle memory keyReg program) s.toBoard)
    (hl : Linked x m d s) (hsh : x.Shadowed m) (hgood : x.takenInKeyStall m = false) :
    Linked x (m + 1) d (s.stream d c) := by
  have hqueue := Run.occupants_step hr.rst hgood hsh
  have hbeat := fun hacc => hr.beat ho hreach hl hacc
  rw [hr.accepts, hr.delivers] at hqueue
  constructor
  · rw [hqueue]
    show _ = ((if s.delivers d c then s.inside.tail else s.inside) ++
      if s.accepts d c then s.board.entering.take 1 else []).map onStream
    rw [List.map_append, List.map_append]
    congr 1
    · split_ifs
      · rw [List.map_tail, List.map_tail, hl.inside, List.map_tail]
      · exact hl.inside
    · split_ifs with hacc
      · obtain ⟨i, rest, hentering, hi, -⟩ := hbeat hacc
        rw [hentering, List.map_singleton, hi]
        rfl
      · rfl
  · rw [hqueue]
    intro b hb
    rcases List.mem_append.mp hb with hb | hb
    · refine hl.keyed b ?_
      split_ifs at hb
      · rw [List.map_tail] at hb
        exact List.mem_of_mem_tail hb
      · exact hb
    · split_ifs at hb with hacc
      · obtain rfl := List.mem_singleton.mp hb
        exact (hbeat hacc).choose_spec.choose_spec.2.2
      · cases hb
  · rw [Run.accepted_step hr.rst, hr.accepts, List.map_append]
    show _ ++ (if s.accepts d c then s.board.entering.tail else s.board.entering).map Item.tlast =
      s.board.readLog.map Item.tlast
    rw [← hl.fetched, List.append_assoc]
    congr 1
    split_ifs with hacc
    · obtain ⟨i, rest, hentering, hi, -⟩ := hbeat hacc
      rw [hentering]
      exact congrArg (· :: rest.map Item.tlast) (congrArg Prod.snd hi)
    · rfl
  · exact hl.last
  · exact hl.aesKey
  · show (if s.delivers d c then s.board.leaving ++ [s.output] else s.board.leaving).length ≤ _
    split_ifs with hd
    · simp only [Design.delivers, corePorts, Bool.and_eq_true, decide_eq_true_eq] at hd
      rw [List.length_append]
      exact hd.2.2
    · exact hl.room

/-- A block that is taken is a step of the core. -/
theorem Runs.step_of_delivers {x : Run} {m : ℕ} {s : Design} {c : Cycle} (hr : Runs x m d s c)
    (hl : Linked x m d s) (hsh : x.Shadowed m) (hu : x.Undisturbed Beat.aesKey m)
    (hd : s.delivers d c = true) :
    Board.step d.platform .core s.toBoard = some (s.stream d c).toBoard := by
  obtain ⟨i, rest, hinside, hout⟩ := hr.output hl hsh hu hd
  refine Board.core_iff.mpr ⟨i, rest ++ s.board.entering,
    congrArg (· ++ s.board.entering) hinside, ?_⟩
  rw [stream_toBoard, hd, hinside, hout]
  rfl

theorem Runs.stream_reaches {x : Run} {m : ℕ} {s : Design} {c : Cycle} (hr : Runs x m d s c)
    (hl : Linked x m d s) (hsh : x.Shadowed m) (hu : x.Undisturbed Beat.aesKey m) :
    Board.Reaches d.platform s.toBoard (s.stream d c).toBoard := by
  cases hd : s.delivers d c with
  | false =>
      rw [stream_toBoard, hd]
      exact Interleaving.Reaches.refl _
  | true => exact .head (hr.step_of_delivers hl hsh hu hd) (Interleaving.Reaches.refl _)

end edge

/-! ### Whole runs -/

/-- The core and the design at the start of cycle `m`. -/
structure InStep (x : Run) [Rom256x1] (m : ℕ) (d : Buffers) (b₀ : Board) (s : Design) : Prop where
  pendingQuiet : x.PendingQuiet m
  undisturbed : x.Undisturbed Beat.aesKey m
  linked : Linked x m d s
  reach : Board.Reaches d.platform b₀ s.toBoard

section runs
variable [Rom256x1] {d : Buffers} {powerUp : Core} {memory : ℕ → BitVec 8} {keyReg : AesBlock}
  {program : List Instr} {cycles : ℕ → Cycle}

theorem runs (b : Board) (n : ℕ) : Runs (coreRun d powerUp b cycles) (n + 1) d
    (state d powerUp b cycles n) (cycles n) :=
  ⟨rfl, rfl, coreRun_state n⟩

theorem inStep_start : InStep (coreRun d powerUp (Board.idle memory keyReg program) cycles) 1 d
    (Board.idle memory keyReg program) (start powerUp (Board.idle memory keyReg program)) where
  pendingQuiet hpending := by
    have hreset : resetPorts.rst = true := rfl
    rw [coreRun_state] at hpending
    cases (Core.step_reset (c := powerUp) hreset).1.symm.trans hpending
  undisturbed := Run.undisturbed_reset rfl
  linked :=
    have hpipe : occupants ((coreRun d powerUp (Board.idle memory keyReg program) cycles).pipe 1) =
        [] := occupants_empty (congrFun (Run.pipe_reset (n := 0) rfl))
    { inside := by rw [hpipe]; rfl
      keyed := by rw [hpipe]; exact fun b hb => (List.not_mem_nil hb).elim
      fetched := rfl
      last := fun i hi => (List.not_mem_nil hi).elim
      aesKey := fun _ => rfl
      room := Nat.zero_le _ }
  reach := Interleaving.Reaches.refl _

variable (ho : Orderly d.platform program)
include ho

theorem keyFirst_coreRun :
    (coreRun d powerUp (Board.idle memory keyReg program) cycles).KeyFirst := by
  refine coreRun_keyFirst ⟨rfl, rfl, ?_⟩
  obtain ⟨⟨call, action⟩, rest, hprogram, hkey⟩ := ho.keyFirst
  unfold Instr.writesKey at hkey
  unfold Board.keyToWrite
  rw [show (Board.idle memory keyReg program).program = _ from hprogram]
  cases action with
  | none => cases hkey
  | some action =>
      cases action with
      | writeKey => rfl
      | reset | dCacheFlushRange | dCacheInvalidateRange | simpleTransfer | whileBusy => cases hkey

/-- The processor keeps the rules of the core for key writes. -/
theorem InStep.quietWrite {n : ℕ}
    (hin : InStep (coreRun d powerUp (Board.idle memory keyReg program) cycles) (n + 1) d
      (Board.idle memory keyReg program)
      (state d powerUp (Board.idle memory keyReg program) cycles n))
    (hw : (state d powerUp (Board.idle memory keyReg program) cycles n).aesKeyWrite (cycles n) =
      true) :
    let x := coreRun d powerUp (Board.idle memory keyReg program) cycles
    x.offers (n + 1) = false ∧ x.packetOpen (n + 1) = false ∧
      (x.delivered (n + 1)).length = (x.accepted (n + 1)).length := by
  have hkey := aesKeyWrite_keyToWrite hw
  refine ⟨?_, hin.linked.quietWrite ho hin.reach hkey hin.undisturbed⟩
  by_contra hoffer
  exact (offers_iff n).mp ((Bool.not_eq_false _).mp hoffer) (quiet ho hin.reach hkey).2.2.2

omit ho in
theorem InStep.rounderKeyAck {x : Run} {m : ℕ} {b₀ : Board} {s : Design} (hin : InStep x m d b₀ s)
    (hack : (x.state m).rounderKeyAck = true) : x.Empty m :=
  (hin.pendingQuiet (Core.rounderKeyAck_iff.mp hack).1).2

/-- The clock edge, up to the activities that follow it. -/
theorem InStep.edge {n : ℕ}
    (hin : InStep (coreRun d powerUp (Board.idle memory keyReg program) cycles) (n + 1) d
      (Board.idle memory keyReg program)
      (state d powerUp (Board.idle memory keyReg program) cycles n)) :
    let s := state d powerUp (Board.idle memory keyReg program) cycles n
    let s₁ := s.stream d (cycles n)
    let s₂ := s₁.writeKey d (cycles n).keyWrite
    Board.Reaches d.platform s.toBoard s₁.toBoard ∧ Board.Reaches d.platform s₁.toBoard s₂.toBoard ∧
      Linked (coreRun d powerUp (Board.idle memory keyReg program) cycles) (n + 1 + 1) d s₂ := by
  have hsh := (coreRun d powerUp (Board.idle memory keyReg program) cycles).shadowed n
  have hgood := Run.not_takenInKeyStall hin.rounderKeyAck hin.undisturbed.frontClear hsh
  have hr : Runs (coreRun d powerUp (Board.idle memory keyReg program) cycles) (n + 1) d
      (state d powerUp (Board.idle memory keyReg program) cycles n) (cycles n) := runs _ n
  have hreach := hr.stream_reaches hin.linked hsh hin.undisturbed
  exact ⟨hreach, writeKey_reaches _, (hin.linked.stream hr ho hin.reach hsh hgood).writeKey ho
    (hin.reach.trans hreach) _⟩

variable (powerUp memory keyReg cycles) in
theorem inStep (n : ℕ) : InStep (coreRun d powerUp (Board.idle memory keyReg program) cycles)
    (n + 1) d (Board.idle memory keyReg program)
    (state d powerUp (Board.idle memory keyReg program) cycles n) := by
  induction n with
  | zero => exact inStep_start
  | succ n ih =>
      set x := coreRun d powerUp (Board.idle memory keyReg program) cycles
      have hsource : x.SourceHolds := coreRun_sourceHolds
      have hfirst : x.KeyFirst := keyFirst_coreRun ho
      have hI := x.keySync n
      obtain ⟨hreach₁, hreach₂, hl₂⟩ := ih.edge ho
      obtain ⟨hl₃, hreach₃⟩ := hl₂.acts (cycles n).activities
      refine ⟨?_, ?_, hl₃, ih.reach.trans (hreach₁.trans (hreach₂.trans hreach₃))⟩
      · exact Run.pendingQuiet_step hsource rfl (fun hw => ih.quietWrite ho hw)
          (Run.accounted hsource n) ih.undisturbed ih.pendingQuiet
      · exact Run.undisturbed_step hfirst rfl hI (x.shadowed n) (Run.ready hfirst n)
          ih.rounderKeyAck
          (fun hin => Run.aesKey_of_accept hI (Run.followsKey coreRun_keyDiscipline n) hfirst rfl
            ih.pendingQuiet hin) ih.undisturbed

theorem quietWrites :
    (coreRun d powerUp (Board.idle memory keyReg program) cycles).QuietWrites
  | 0, hrst, _ => by cases hrst
  | n + 1, _, hw => (inStep powerUp memory keyReg cycles ho n).quietWrite ho hw

end runs

/-- Four blocks fit into each buffer. -/
def smallBuffers : Buffers := ⟨4, 4⟩

/-- Two calls with different keys for buffers that overlap. -/
def twoKeys : List (Call smallBuffers.platform) :=
  [⟨.encryptFlushing, 1, ⟨0x100000, 9, by decide, by decide⟩, fun _ => by decide⟩,
    ⟨.encrypt, 2, ⟨0x100008, 6, by decide, by decide⟩, fun _ => by decide⟩]

theorem twoKeys_blocking : ∀ c ∈ twoKeys, c.function.isBlocking = true := by
  simp [twoKeys, DriverFunction.isBlocking]

/-- Everything gets its turn in every cycle. -/
def steady : Cycle where
  writeTready := true
  keyWrite := .last
  idleTdata := 0
  idleTlast := false
  undefConstant := 0
  undefKey := 0
  activities := [.processor, .fetch, .store]

end Design

end AesAccelerator

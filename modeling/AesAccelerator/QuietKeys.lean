import AesAccelerator.SerialCalls

/-! # Programs that write keys quietly

What a program has to keep to so that the core can stand between the two channels of the engine: it
is safe, it begins with a key, and it writes a key only when both channels are known to be idle
(`Orderly`).  Then nothing is under way when a key is written (`Board.quiet_of_keyToWrite`).
Jobs one after the other are such a program. -/

namespace AesAccelerator

def Instr.writesKey (i : Instr) : Bool :=
  match i.action with
  | some (.writeKey _) => true
  | _ => false

/-- A key is written only when both channels are known to be idle. -/
def QuietKeys : Known → List Instr → Prop
  | _, [] => True
  | k, i :: rest => (i.writesKey = true → k = .quiet) ∧ QuietKeys (k.next i) rest

theorem QuietKeys.append : ∀ {first second : List Instr} {k : Known}, QuietKeys k first →
    QuietKeys (k.after first) second → QuietKeys k (first ++ second)
  | [], _, _, _, h => h
  | _ :: _, _, _, h, h' => ⟨h.1, QuietKeys.append h.2 h'⟩

theorem quietKeys_of_noKey : ∀ {program : List Instr} {k : Known},
    (∀ i ∈ program, i.writesKey = false) → QuietKeys k program
  | [], _, _ => trivial
  | i :: program, _, h => by
      refine ⟨fun hi => ?_, quietKeys_of_noKey fun j hj => h j (List.mem_cons_of_mem _ hj)⟩
      rw [h i List.mem_cons_self] at hi
      cases hi

section jobs
variable {p : Platform}

theorem quietKeys_startsNothing : ∀ {setup : List Instr},
    (∀ i ∈ setup, i.startsNothing = true) → QuietKeys .quiet setup
  | [], _ => trivial
  | ⟨call, action⟩ :: setup, h => by
      have hrest := quietKeys_startsNothing fun i hi => h i (List.mem_cons_of_mem _ hi)
      have hi := h ⟨call, action⟩ List.mem_cons_self
      cases action with
      | none => cases hi
      | some action =>
          cases action with
          | writeKey | reset | dCacheFlushRange | dCacheInvalidateRange => exact ⟨fun _ => rfl, hrest⟩
          | simpleTransfer | whileBusy => cases hi

theorem Job.quietKeys (j : Job p) : QuietKeys .quiet j.program := by
  refine (quietKeys_startsNothing j.startsNothing).append ?_
  have hquiet : Known.quiet.after j.setup = .quiet :=
    (Job.leads_startsNothing j.startsNothing : Leads p (fun _ => True) _ _ _).after
  rw [hquiet]
  refine ⟨fun _ => rfl, quietKeys_of_noKey fun i hi => ?_⟩
  have hno := j.noKey i hi
  unfold Instr.writesKey
  split
  · exact absurd ‹_› (hno _)
  · rfl

/-- Jobs one after the other start and end with both channels known to be idle. -/
theorem leads_jobs : ∀ jobs : List (Job p),
    Leads p (fun _ => True) .quiet (jobs.flatMap Job.program) .quiet ∧
      QuietKeys .quiet (jobs.flatMap Job.program)
  | [] => ⟨leads_nil _, trivial⟩
  | j :: jobs => by
      obtain ⟨hleads, hquiet⟩ := leads_jobs jobs
      have hafter : Known.quiet.after j.program = .quiet := j.leads_program.after
      exact ⟨j.leads_program.append hleads, j.quietKeys.append (by rwa [hafter])⟩

end jobs

/-! ### Orderly programs -/

/-- A program that the block design can run. -/
structure Orderly (p : Platform) (program : List Instr) : Prop where
  safe : Safe p (fun _ => True) .quiet program
  ends : Ends program
  quietKeys : QuietKeys .quiet program
  /-- It begins with a key. -/
  keyFirst : ∃ i rest, program = i :: rest ∧ i.writesKey = true

/-- The driver makes only blocking calls. -/
theorem orderly_driver {p : Platform} {calls : List (Call p)}
    (hblocking : ∀ c ∈ calls, c.function.isBlocking = true) (dummy : ℕ) :
    Orderly p (initProgram dummy ++ programOf 1 calls) := by
  obtain ⟨jobs, hstart, -⟩ := driverStart_jobs (p := p) hblocking (fun _ => 0) 0 dummy
  have hprogram : initProgram dummy ++ programOf 1 calls = jobs.flatMap Job.program := by
    have := congrArg Board.program hstart
    simpa [driverStart, Board.embed, Board.idle] using this
  obtain ⟨hleads, hquiet⟩ := leads_jobs jobs
  refine ⟨?_, ends_driver dummy calls, ?_, ⟨⟨0, some (.writeKey 0)⟩, _, rfl, rfl⟩⟩
  · rw [hprogram]
    exact hleads.safe
  · rw [hprogram]
    exact hquiet

namespace Board

/-- The key that the processor is about to write. -/
def keyToWrite (b : Board) : Option AesBlock :=
  match b.program with
  | ⟨_, some (.writeKey key)⟩ :: _ => some key
  | _ => none

theorem keyToWrite_iff {b : Board} {key : AesBlock} : b.keyToWrite = some key ↔
    ∃ call rest, b.program = ⟨call, some (.writeKey key)⟩ :: rest := by
  unfold keyToWrite
  split
  · rename_i call key' rest hp
    simp [hp]
  · rename_i hp
    simpa using fun call rest => hp call key rest

section orderly
variable {p : Platform} {memory : ℕ → BitVec 8} {keyReg : AesBlock} {program : List Instr}
  {b : Board} (ho : Orderly p program) (hreach : Reaches p (idle memory keyReg program) b)
include ho hreach

theorem sound_of_orderly : ∃ k, Sound p (fun _ => True) (readsOf program) k b.program b ∧
    QuietKeys k b.program := by
  refine hreach.invariant (P := fun b => ∃ k, Sound p (fun _ => True) (readsOf program) k
    b.program b ∧ QuietKeys k b.program) ?_ ⟨.quiet, sound_idle _ _ _ ho.safe ho.ends, ho.quietKeys⟩
  rintro a b b' hstep ⟨k, hs, hq⟩
  by_cases ha : a = .processor
  · subst ha
    obtain ⟨i, rest, hp, hexec⟩ := processor_iff.mp hstep
    rw [hp] at hs hq
    rw [(execute_frame hexec).1]
    exact ⟨k.next i, hs.processor rest hexec, hq.2⟩
  · rw [(engine_frame ha hstep).1]
    exact ⟨k, hs.engine ha hstep, hq⟩

/-- When the processor is about to write a key, nothing is under way. -/
theorem quiet_of_keyToWrite (hkey : b.keyToWrite.isSome = true) :
    b.Flow ∧ b.dmaToDevice = none ∧ b.leaving = [] ∧ b.entering = [] := by
  obtain ⟨k, hs, hq⟩ := sound_of_orderly ho hreach
  obtain ⟨key, hkey⟩ := Option.isSome_iff_exists.mp hkey
  obtain ⟨call, rest, hp⟩ := keyToWrite_iff.mp hkey
  have hk : k = .quiet := by
    rw [hp] at hq
    exact hq.1 rfl
  have hidle := hs.knows.deviceToDma (by rw [hk]; rfl)
  obtain ⟨hread, hleaving, hentering, -⟩ :=
    hs.flow.drained hidle (hs.knows.reads_eq (by rw [hk]; rfl))
  exact ⟨hs.flow, hread, hleaving, hentering⟩

end orderly

/-- The last block of every transfer has `last`. -/
theorem last_of_getLast {reads : List Request} {beat : DmaBeat}
    (h : (reads.flatMap Request.beats).getLast? = some beat) : beat.last = true := by
  induction reads using List.reverseRecOn with
  | nil => cases h
  | append_singleton reads r ih =>
      rw [List.flatMap_append, List.flatMap_singleton] at h
      rcases Nat.eq_zero_or_pos r.blocks with hzero | hpos
      · have hnil : r.beats = [] := by rw [Request.beats, hzero]; rfl
        rw [hnil, List.append_nil] at h
        exact ih h
      · obtain ⟨n, hn⟩ := Nat.exists_eq_succ_of_ne_zero hpos.ne'
        have hbeats : r.beats = (List.range n).map (DmaBeat.mk r) ++ [⟨r, n⟩] := by
          rw [Request.beats, hn, List.range_succ, List.map_append]
          rfl
        rw [hbeats, ← List.append_assoc, List.getLast?_append] at h
        obtain rfl := Option.some.inj h
        simp [DmaBeat.last, hn]

end Board

end AesAccelerator

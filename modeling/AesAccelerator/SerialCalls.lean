import AesAccelerator.CallSequences
import AesAccelerator.InPlace

/-! # Calls one after the other

The processor, the engine and the core run concurrently, but a sequence of blocking calls changes
the memory as a sequential program does that encrypts one block after another (`sequential`): at
every moment of every interleaving the memory is what this program has made of it after as many
blocks as have been written (`blocking_serialize`).

A `Job` is the part of the driver's program that encrypts some blocks under one key.  Alone, on an
idle board, it encrypts its blocks in order (`Job.memory_eq`).  In a longer program it runs as it
does alone until it is over (`Board.embed`, `Board.step_embed`), and when it is over the board is
idle again. -/

namespace AesAccelerator

/-! ### The sequential program -/

section sequential
variable (p : Platform)

/-- A block to be encrypted: the key and the address. -/
abbrev Task := AesBlock × ℕ

def encryptTask (memory : ℕ → BitVec 8) (task : Task) : ℕ → BitVec 8 :=
  writeBlock memory task.2 (p.encrypt task.1 (readBlock memory task.2))

def sequential (tasks : List Task) (memory : ℕ → BitVec 8) : ℕ → BitVec 8 :=
  tasks.foldl (encryptTask p) memory

theorem sequential_append (first second : List Task) (memory : ℕ → BitVec 8) :
    sequential p (first ++ second) memory = sequential p second (sequential p first memory) :=
  List.foldl_append

/-- The tasks of one key. -/
def tasksOf (key : AesBlock) (addrs : List ℕ) : List Task := addrs.map fun addr => (key, addr)

/-- Blocks that do not overlap can be encrypted from the original memory. -/
theorem encryptedAt_eq_sequential (key : AesBlock) (memory : ℕ → BitVec 8) {addrs : List ℕ}
    (hapart : addrs.Pairwise Apart) :
    encryptedAt p key memory addrs = sequential p (tasksOf key addrs) memory := by
  induction addrs using List.reverseRecOn with
  | nil => rfl
  | append_singleton addrs addr ih =>
      obtain ⟨hpre, -, hlast⟩ := List.pairwise_append.mp hapart
      have hplain : readBlock (encryptedAt p key memory addrs) addr = readBlock memory addr :=
        readBlock_encryptedAt_of_apart p key memory
          fun addr' hmem => hlast addr' hmem addr (List.mem_singleton_self _)
      rw [encryptedAt_append, imageAt, ← hplain, ih hpre, tasksOf, tasksOf, List.map_append,
        sequential_append]
      rfl

end sequential

/-! ### A part of a longer program -/

namespace Board

/-- The board `b` after the records of `past`, with `rest` to be done after its own program. -/
def embed (past : Board) (rest : List Instr) (b : Board) : Board :=
  { b with
    program := b.program ++ rest
    reads := past.reads ++ b.reads
    writes := past.writes ++ b.writes
    refused := past.refused ++ b.refused
    readLog := past.readLog ++ b.readLog
    writeLog := past.writeLog ++ b.writeLog
    returned := past.returned ++ b.returned }

section embed
variable (p : Platform) (past : Board) (rest : List Instr)

theorem simpleTransfer_embed (b : Board) (r : Request) (channel : Channel) :
    (embed past rest b).simpleTransfer p r channel =
      embed past rest (b.simpleTransfer p r channel) := by
  have hbusy : (embed past rest b).busy channel = b.busy channel := by cases channel <;> rfl
  unfold simpleTransfer
  rw [hbusy]
  split_ifs
  · simp [embed]
  · cases channel <;> simp [embed, start]

theorem execute_embed (b : Board) (i : Instr) :
    (embed past rest b).execute p i = (b.execute p i).map (embed past rest) := by
  obtain ⟨call, action⟩ := i
  cases action with
  | none => simp [execute, embed]
  | some action =>
      cases action with
      | writeKey | reset | dCacheFlushRange | dCacheInvalidateRange => rfl
      | simpleTransfer addr length channel =>
          exact congrArg some (simpleTransfer_embed p past rest b ⟨call, addr, length⟩ channel)
      | whileBusy channel =>
          have hbusy : (embed past rest b).busy channel = b.busy channel := by cases channel <;> rfl
          simp only [execute, hbusy]
          split_ifs <;> rfl

theorem afterRead_embed (b : Board) (t : Transfer) :
    (embed past rest b).afterRead t = embed past rest (b.afterRead t) := by
  unfold afterRead embed readItem
  simp only [List.append_assoc]

theorem afterWrite_embed (b : Board) (t : Transfer) (item : Item) (items : List Item) :
    (embed past rest b).afterWrite t item items = embed past rest (b.afterWrite t item items) := by
  unfold afterWrite embed
  simp only [List.append_assoc]

/-- Until its own program is over, the part does what it does alone. -/
theorem step_embed (a : Actor) (b : Board) (h : ¬ b.program = []) :
    step p a (embed past rest b) = (step p a b).map (embed past rest) := by
  cases a with
  | processor =>
      cases hp : b.program with
      | nil => exact absurd hp h
      | cons i todo =>
          have hwhole : (embed past rest b).program = i :: (todo ++ rest) := by
            simp [embed, hp]
          simp only [step, processor, hp, hwhole]
          exact execute_embed p past rest { b with program := todo } i
  | dmaRead =>
      have hchannel : (embed past rest b).dmaToDevice = b.dmaToDevice := rfl
      simp only [step, dmaRead, hchannel]
      cases b.dmaToDevice with
      | none => rfl
      | some t =>
          have hcore : (embed past rest b).entering.length + (embed past rest b).leaving.length =
              b.entering.length + b.leaving.length := rfl
          simp only [hcore, afterRead_embed]
          split_ifs <;> rfl
  | core =>
      have hcore : (embed past rest b).entering = b.entering := rfl
      simp only [step, core, hcore]
      cases b.entering with
      | nil => rfl
      | cons item items => rfl
  | dmaWrite =>
      have hchannel : (embed past rest b).deviceToDma = b.deviceToDma := rfl
      have hcore : (embed past rest b).leaving = b.leaving := rfl
      simp only [step, dmaWrite, hchannel, hcore]
      cases b.deviceToDma with
      | none => rfl
      | some t =>
          cases b.leaving with
          | nil => rfl
          | cons item items =>
              simp only [afterWrite_embed]
              split_ifs <;> rfl

end embed

end Board

/-! ### A job alone -/

/-- An action that neither starts a transfer nor waits nor returns. -/
def Instr.startsNothing (i : Instr) : Bool :=
  match i.action with
  | some (.writeKey _) | some .reset => true
  | some (.dCacheFlushRange _ _) | some (.dCacheInvalidateRange _ _) => true
  | _ => false

/-- The part of a program that encrypts the blocks at `addrs` under `key`. -/
structure Job (p : Platform) where
  setup : List Instr
  call : ℕ
  key : AesBlock
  transfers : List Instr
  addrs : List ℕ
  startsNothing : ∀ i ∈ setup, i.startsNothing = true
  noKey : ∀ i ∈ transfers, ∀ key', i.action ≠ some (.writeKey key')
  leads : Leads p (fun _ => True) .quiet transfers .quiet
  ends : Ends transfers
  reads : readAddrs transfers = addrs
  apart : addrs.Pairwise Apart

namespace Job

variable {p : Platform}

/-- The program once the setup is done. -/
def keyAndTransfers (j : Job p) : List Instr := ⟨j.call, some (.writeKey j.key)⟩ :: j.transfers

def program (j : Job p) : List Instr := j.setup ++ j.keyAndTransfers

def tasks (j : Job p) : List Task := tasksOf j.key j.addrs

theorem leads_startsNothing {blocking : ℕ → Prop} : ∀ {setup : List Instr},
    (∀ i ∈ setup, i.startsNothing = true) → Leads p blocking .quiet setup .quiet
  | [], _ => leads_nil _
  | ⟨call, action⟩ :: setup, h => by
      have hrest : Leads p blocking .quiet setup .quiet :=
        leads_startsNothing fun i hi => h i (List.mem_cons_of_mem _ hi)
      have hi := h ⟨call, action⟩ List.mem_cons_self
      cases action with
      | none => cases hi
      | some action =>
          cases action with
          | writeKey | dCacheFlushRange | dCacheInvalidateRange => exact .cons trivial hrest
          | reset => exact .cons rfl hrest
          | simpleTransfer | whileBusy => cases hi

theorem readAddrs_startsNothing (rest : List Instr) : ∀ {setup : List Instr},
    (∀ i ∈ setup, i.startsNothing = true) → readAddrs (setup ++ rest) = readAddrs rest
  | [], _ => rfl
  | ⟨call, action⟩ :: setup, h => by
      have hi := h ⟨call, action⟩ List.mem_cons_self
      have hnone : Instr.read? ⟨call, action⟩ = none := by
        cases action with
        | none => rfl
        | some action => cases action <;> first | rfl | cases hi
      rw [List.cons_append, readAddrs_cons_none hnone]
      exact readAddrs_startsNothing rest fun i hi => h i (List.mem_cons_of_mem _ hi)

theorem ends_startsNothing {rest : List Instr} (hrest : Ends rest) : ∀ {setup : List Instr},
    (∀ i ∈ setup, i.startsNothing = true) → Ends (setup ++ rest)
  | [], _ => hrest
  | i :: setup, h => by
      refine List.pairwise_cons.mpr ⟨fun j _ hreturn => ?_,
        ends_startsNothing hrest fun i hi => h i (List.mem_cons_of_mem _ hi)⟩
      have hi := h i List.mem_cons_self
      rw [Instr.startsNothing, hreturn] at hi
      cases hi

section alone
variable (j : Job p) {memory : ℕ → BitVec 8} {keyReg : AesBlock} {b : Board}

theorem leads_program : Leads p (fun _ => True) .quiet j.program .quiet :=
  (leads_startsNothing j.startsNothing).append (.cons trivial j.leads)

theorem ends_program : Ends j.program := by
  refine ends_startsNothing (List.pairwise_cons.mpr ⟨fun i _ h => ?_, j.ends⟩) j.startsNothing
  cases h

theorem readAddrs_program : readAddrs j.program = j.addrs := by
  rw [program, readAddrs_startsNothing _ j.startsNothing, keyAndTransfers, readAddrs_cons_none rfl,
    j.reads]

/-- The program is sound to its end, and both channels are known to be idle there. -/
theorem sound (hreach : Board.Reaches p (Board.idle memory keyReg j.program) b) :
    ∃ k, Board.Sound p (fun _ => True) (readsOf j.program) k b.program b ∧
      k.after b.program = .quiet := by
  refine hreach.invariant (P := fun b => ∃ k, Board.Sound p (fun _ => True) (readsOf j.program) k
    b.program b ∧ k.after b.program = .quiet) ?_
    ⟨.quiet, Board.sound_idle _ _ _ j.leads_program.safe j.ends_program, j.leads_program.after⟩
  rintro a b b' hstep ⟨k, hs, hafter⟩
  by_cases ha : a = .processor
  · subst ha
    obtain ⟨i, rest, hp, hexec⟩ := Board.processor_iff.mp hstep
    rw [hp] at hs hafter
    rw [(Board.execute_frame hexec).1]
    exact ⟨k.next i, hs.processor rest hexec, hafter⟩
  · rw [(Board.engine_frame ha hstep).1]
    exact ⟨k, hs.engine ha hstep, hafter⟩

/-- The blocks are written in order. -/
theorem writeLog_addrs (hreach : Board.Reaches p (Board.idle memory keyReg j.program) b) :
    (b.writeLog.map Prod.fst).map DmaBeat.addr = j.addrs.take b.writeLog.length := by
  obtain ⟨k, hs, -⟩ := j.sound hreach
  have hprefix := hs.writeLog_prefix.map DmaBeat.addr
  have haddrs : ((readsOf j.program).flatMap Request.beats).map DmaBeat.addr = j.addrs :=
    j.readAddrs_program
  rw [haddrs] at hprefix
  have htake := List.prefix_iff_eq_take.mp hprefix
  rwa [List.length_map, List.length_map] at htake

/-- No two of the blocks read so far overlap. -/
theorem apart_reads (hreach : Board.Reaches p (Board.idle memory keyReg j.program) b) :
    ((b.reads.flatMap Request.beats).map DmaBeat.addr).Pairwise Apart := by
  obtain ⟨k, hs, -⟩ := j.sound hreach
  have hall : ((readsOf j.program).flatMap Request.beats).map DmaBeat.addr = j.addrs :=
    j.readAddrs_program
  refine List.Pairwise.sublist ?_ j.apart
  rw [← hall, ← hs.reads, List.flatMap_append, List.map_append]
  exact List.sublist_append_left _ _

/-- In the setup nothing but the key register changes. -/
theorem setup_step {setup rest : List Instr} (hsetup : ∀ i ∈ setup, i.startsNothing = true)
    (hne : setup ≠ []) {a : Actor} {b' : Board}
    (hstep : Board.step p a (Board.idle memory keyReg (setup ++ rest)) = some b') :
    ∃ keyReg', b' = Board.idle memory keyReg' (setup.tail ++ rest) := by
  cases setup with
  | nil => exact absurd rfl hne
  | cons i setup =>
      have hi := hsetup i List.mem_cons_self
      obtain ⟨call, action⟩ := i
      cases a with
      | dmaRead | core | dmaWrite => cases hstep
      | processor =>
          cases action with
          | none => cases hi
          | some action =>
              cases action with
              | writeKey key => exact ⟨key, (Option.some.inj hstep).symm⟩
              | reset | dCacheFlushRange | dCacheInvalidateRange =>
                  exact ⟨keyReg, (Option.some.inj hstep).symm⟩
              | simpleTransfer | whileBusy => cases hi

/-- Either the setup is not yet done, or the blocks are being encrypted in place. -/
theorem inPlace (hreach : Board.Reaches p (Board.idle memory keyReg j.program) b) :
    (∃ keyReg' setup, b = Board.idle memory keyReg' (setup ++ j.keyAndTransfers) ∧
      ∀ i ∈ setup, i.startsNothing = true) ∨ Board.InPlace p j.key memory b := by
  induction hreach with
  | refl => exact Or.inl ⟨keyReg, j.setup, rfl, j.startsNothing⟩
  | @tail b b' hreach hstep ih =>
      obtain ⟨a, hstep⟩ := hstep
      rcases ih with ⟨keyReg', setup, rfl, hsetup⟩ | hi
      · by_cases hne : setup = []
        · right
          subst hne
          cases a with
          | dmaRead | core | dmaWrite => cases hstep
          | processor =>
              obtain rfl := Option.some.inj hstep
              refine ⟨rfl, j.noKey, ?_, ?_, ?_, rfl⟩ <;> exact fun i hi => (List.not_mem_nil hi).elim
        · left
          obtain ⟨keyReg'', rfl⟩ := setup_step hsetup hne hstep
          exact ⟨keyReg'', setup.tail, rfl, fun i hi => hsetup i (List.mem_of_mem_tail hi)⟩
      · obtain ⟨k, hs, -⟩ := j.sound hreach
        exact Or.inr (hi.step hs.flow (j.apart_reads hreach) hstep)

/-- At every moment the memory is that of the sequential program after the blocks written. -/
theorem memory_eq (hreach : Board.Reaches p (Board.idle memory keyReg j.program) b) :
    b.memory = sequential p (j.tasks.take b.writeLog.length) memory := by
  rcases j.inPlace hreach with ⟨keyReg', setup, rfl, -⟩ | hi
  · rfl
  · rw [hi.memory, j.writeLog_addrs hreach, encryptedAt_eq_sequential]
    · rw [tasks, tasksOf, tasksOf, List.map_take]
    · exact j.apart.sublist (List.take_sublist _ _)

/-- When the program is done, all blocks have been written and the board is idle. -/
theorem finished (hreach : Board.Reaches p (Board.idle memory keyReg j.program) b)
    (hdone : b.program = []) : b.writeLog.length = j.tasks.length ∧ b.dmaToDevice = none ∧
      b.deviceToDma = none ∧ b.entering = [] ∧ b.leaving = [] := by
  obtain ⟨k, hs, hafter⟩ := j.sound hreach
  rw [hdone] at hs hafter
  obtain rfl : k = .quiet := hafter
  have hidle := hs.knows.deviceToDma rfl
  obtain ⟨hread, hleaving, hentering, hlog⟩ := hs.flow.drained hidle (hs.knows.reads_eq rfl)
  refine ⟨?_, hread, hidle, hentering, hleaving⟩
  have hreads := hs.reads
  rw [readsOf, List.filterMap_nil, List.append_nil] at hreads
  have hlength := congrArg (fun beats => (beats.map DmaBeat.addr).length) hlog
  have haddrs : ((readsOf j.program).flatMap Request.beats).map DmaBeat.addr = j.addrs :=
    j.readAddrs_program
  simp only [hreads, haddrs, List.length_map] at hlength
  rw [hlength, tasks, tasksOf, List.length_map]

theorem refused_eq (hreach : Board.Reaches p (Board.idle memory keyReg j.program) b) :
    b.refused = [] := by
  obtain ⟨k, hs, -⟩ := j.sound hreach
  exact hs.refused

end alone

end Job

/-! ### The calls as jobs -/

theorem Safe.of_append {p : Platform} {blocking : ℕ → Prop} : ∀ {first second : List Instr}
    {k : Known}, Safe p blocking k (first ++ second) → Safe p blocking (k.after first) second
  | [], _, _, h => h
  | _ :: first, second, _, h => @Safe.of_append p blocking first second _ h.2

theorem Known.after_append (k : Known) (first second : List Instr) :
    k.after (first ++ second) = (k.after first).after second := List.foldl_append

/-- What follows a setup and a key write, by itself. -/
theorem Leads.of_setup {p : Platform} {setup rest : List Instr} {call : ℕ} {key : AesBlock}
    {k' : Known} (hsetup : ∀ i ∈ setup, i.startsNothing = true)
    (h : Leads p (fun _ => True) .quiet (setup ++ ⟨call, some (.writeKey key)⟩ :: rest) k') :
    Leads p (fun _ => True) .quiet rest k' := by
  have hquiet : Known.quiet.after setup = .quiet :=
    (Job.leads_startsNothing hsetup : Leads p (fun _ => True) _ _ _).after
  have hsafe := h.safe.of_append
  have hafter := h.after
  rw [hquiet] at hsafe
  rw [Known.after_append, hquiet] at hafter
  exact ⟨hsafe.2, hafter⟩

/-- The actions of a call that sets up, writes its key, transfers and waits. -/
theorem exists_job {p : Platform} (n : ℕ) (key : AesBlock) {actions setup transfers : List Action}
    {addrs : List ℕ} (hactions : actions = setup ++ .writeKey key :: transfers)
    (hsetup : ∀ i ∈ instrs n setup, i.startsNothing = true)
    (hno : ∀ a ∈ transfers, ∀ key', a ≠ .writeKey key')
    (hleads : Leads p (fun _ => True) .quiet (instrs n actions ++ [⟨n, none⟩]) .quiet)
    (hreads : readAddrs (instrs n actions) = addrs) (hapart : addrs.Pairwise Apart) :
    ∃ j : Job p, j.program = instrs n actions ++ [⟨n, none⟩] ∧ j.tasks = tasksOf key addrs := by
  have hsplit : instrs n actions =
      instrs n setup ++ ⟨n, some (.writeKey key)⟩ :: instrs n transfers := by
    rw [hactions, instrs_append, instrs_cons]
  have hprogram : instrs n actions ++ [⟨n, none⟩] =
      instrs n setup ++ ⟨n, some (.writeKey key)⟩ :: (instrs n transfers ++ [⟨n, none⟩]) := by
    rw [hsplit, List.append_assoc]
    rfl
  have haddrs : readAddrs (instrs n transfers ++ [⟨n, none⟩]) = addrs := by
    rw [← hreads, hsplit, Job.readAddrs_startsNothing _ hsetup, readAddrs_cons_none rfl,
      readAddrs_append]
    exact List.append_nil _
  refine ⟨⟨instrs n setup, n, key, instrs n transfers ++ [⟨n, none⟩], addrs, hsetup, ?_,
    (hprogram ▸ hleads).of_setup hsetup,
    (ends_instrs n _ transfers).mpr (List.pairwise_singleton _ _), haddrs, hapart⟩, ?_, rfl⟩
  · intro i hi key'
    rcases List.mem_append.mp hi with hi | hi
    · obtain ⟨a, ha, rfl⟩ := List.mem_map.mp hi
      intro h
      exact hno a ha key' (Option.some.inj h)
    · obtain rfl := List.mem_singleton.mp hi
      simp
  · exact hprogram.symm

section calls
variable {p : Platform}

/-- The blocks of a call, in order. -/
def Call.tasks (c : Call p) : List Task := tasksOf c.key c.buffer.addrs

theorem encryptLarge_noKey (buf : Buffer) {a : Action}
    (ha : a ∈ AesHw.encryptLargeLoop p.lengthWidth buf.inout (16 * buf.nBlocks) ++
      [.whileBusy .deviceToDma]) (key : AesBlock) : a ≠ .writeKey key := by
  rcases List.mem_append.mp ha with ha | ha
  · rcases mem_encryptLargeLoop _ _ ha with ⟨_, rfl⟩ | ⟨_, _, _, rfl⟩ <;> simp
  · obtain rfl := List.mem_singleton.mp ha
    simp

/-- A call writes its key once; before it there is at most the flush. -/
theorem Call.actions_split (c : Call p) : ∃ setup transfers,
    c.actions = setup ++ .writeKey c.key :: transfers ∧
      (∀ a ∈ setup, ∃ addr length, a = .dCacheFlushRange addr length) ∧
      ∀ a ∈ transfers, ∀ key, a ≠ .writeKey key := by
  obtain ⟨function, key, buf, small⟩ := c
  have hlarge : AesHw.encryptLarge p.lengthWidth key buf.inout buf.nBlocks = .writeKey key ::
      (AesHw.encryptLargeLoop p.lengthWidth buf.inout (16 * buf.nBlocks) ++
        [.whileBusy .deviceToDma]) := by
    rw [AesHw.encryptLarge, buf.bytes_eq, List.cons_append]
  cases function with
  | encrypt | encryptNonblocking =>
      refine ⟨[], _, rfl, fun _ h => (List.not_mem_nil h).elim, ?_⟩
      simp
  | encryptLarge =>
      exact ⟨[], _, hlarge, fun _ h => (List.not_mem_nil h).elim,
        fun a ha => encryptLarge_noKey buf ha⟩
  | encryptFlushing =>
      refine ⟨[_], _, rfl, fun a ha => ⟨_, _, List.mem_singleton.mp ha⟩, ?_⟩
      simp
  | encryptFlushingLarge =>
      refine ⟨[.dCacheFlushRange buf.inout (AesHw.cInt (buf.nBlocks * 16))],
        (AesHw.encryptLargeLoop p.lengthWidth buf.inout (16 * buf.nBlocks) ++
          [.whileBusy .deviceToDma]) ++
            [.dCacheInvalidateRange buf.inout (AesHw.cInt (buf.nBlocks * 16))], ?_,
        fun a ha => ⟨_, _, List.mem_singleton.mp ha⟩, ?_⟩
      · rw [← List.cons_append, ← hlarge]
        rfl
      · intro a ha key'
        rcases List.mem_append.mp ha with ha | ha
        · exact encryptLarge_noKey buf ha key'
        · obtain rfl := List.mem_singleton.mp ha
          simp

theorem Call.exists_job (c : Call p) (hblocking : c.function.isBlocking = true) (n : ℕ) :
    ∃ j : Job p, j.program = instrs n c.actions ++ [⟨n, none⟩] ∧ j.tasks = c.tasks := by
  obtain ⟨setup, transfers, hactions, hsetup, hno⟩ := c.actions_split
  obtain ⟨k', hleads, -, hquiet⟩ :=
    leads_call (fun _ => True) n c (k := .quiet) rfl fun _ => rfl
  rw [hquiet hblocking] at hleads
  refine AesAccelerator.exists_job n c.key hactions ?_ hno
    (hleads.append (.cons (fun _ => rfl) (leads_nil _))) (readAddrs_call n c)
    c.buffer.addrs_apart
  intro i hi
  obtain ⟨a, ha, rfl⟩ := List.mem_map.mp hi
  obtain ⟨addr, length, rfl⟩ := hsetup a ha
  rfl

/-- Blocking calls as jobs. -/
theorem exists_jobs : ∀ {calls : List (Call p)} (n : ℕ),
    (∀ c ∈ calls, c.function.isBlocking = true) → ∃ jobs : List (Job p),
      jobs.flatMap Job.program = programOf n calls ∧
        jobs.flatMap Job.tasks = calls.flatMap Call.tasks
  | [], _, _ => ⟨[], rfl, rfl⟩
  | c :: calls, n, h => by
      obtain ⟨j, hprogram, htasks⟩ := c.exists_job (h c List.mem_cons_self) n
      obtain ⟨jobs, hprograms, htasks'⟩ :=
        exists_jobs (n + 1) fun c hc => h c (List.mem_cons_of_mem _ hc)
      refine ⟨j :: jobs, ?_, ?_⟩
      · rw [List.flatMap_cons, hprogram, hprograms, programOf, List.append_assoc]
        rfl
      · rw [List.flatMap_cons, htasks, htasks', List.flatMap_cons]

/-- `aes_hw_init` as a job. -/
theorem exists_job_init (dummy : ℕ) : ∃ j : Job p, j.program = initProgram dummy ∧
    j.tasks = tasksOf 0 [dummy] := by
  have hreads : readAddrs (instrs 0 (AesHw.init dummy)) = [dummy] := by
    unfold AesHw.init AesHw.encrypt
    rw [show AesHw.cInt (1 * 16) = 16 by decide]
    show readAddrs (⟨0, some (.writeKey 0)⟩ :: ⟨0, some .reset⟩ :: ⟨0, some (.writeKey 0)⟩ ::
      ⟨0, some (.simpleTransfer dummy 16 .dmaToDevice)⟩ :: _) = _
    rw [readAddrs_cons_none rfl, readAddrs_cons_none rfl, readAddrs_cons_none rfl,
      readAddrs_transfer 0 dummy (show (16 : ℤ) = 16 * (1 : ℕ) from rfl)]
    rfl
  have hactions : AesHw.init dummy = [.writeKey 0, .reset] ++ AesHw.encrypt 0 dummy 1 := rfl
  refine exists_job 0 0 hactions ?_ ?_ (leads_init _ dummy) hreads (List.pairwise_singleton _ _)
  · decide
  · simp

end calls

/-! ### One job after the other -/

namespace Board

/-- Nothing is left to be done. -/
structure AtRest (b : Board) : Prop where
  program : b.program = []
  dmaToDevice : b.dmaToDevice = none
  deviceToDma : b.deviceToDma = none
  entering : b.entering = []
  leaving : b.leaving = []

theorem AtRest.step {p : Platform} {b : Board} (h : b.AtRest) (a : Actor) :
    Board.step p a b = none := by
  obtain ⟨hprogram, hread, hwrite, hentering, hleaving⟩ := h
  cases a with
  | processor => simp only [Board.step, processor, hprogram]
  | dmaRead => simp only [Board.step, dmaRead, hread]
  | core => simp only [Board.step, core, hentering]
  | dmaWrite => simp only [Board.step, dmaWrite, hwrite]

/-- When the part is over, what follows it starts on an idle board. -/
theorem embed_of_atRest (past : Board) (rest : List Instr) {b : Board} (h : b.AtRest) :
    embed past rest b = embed (embed past [] b) [] (idle b.memory b.keyReg rest) := by
  obtain ⟨hprogram, hread, hwrite, hentering, hleaving⟩ := h
  simp [embed, idle, hprogram, hread, hwrite, hentering, hleaving]

theorem AtRest.eq_embed {b : Board} (h : b.AtRest) (memory : ℕ → BitVec 8)
    (program : List Instr) : { b with memory := memory, program := program } =
      embed b [] (idle memory b.keyReg program) := by
  obtain ⟨-, hread, hwrite, hentering, hleaving⟩ := h
  simp [embed, idle, hread, hwrite, hentering, hleaving]

/-- The memory is that of the sequential program after the tasks done so far, and at the end all
of them are done.  Before the end a step can be done. -/
structure Serial (p : Platform) (tasks : List Task) (memory : ℕ → BitVec 8) (done : ℕ)
    (b : Board) : Prop where
  refused : b.refused = []
  memory : b.memory = sequential p (tasks.take done) memory
  finished : b.program = [] → done = tasks.length ∧ b.AtRest
  progress : b.program ≠ [] → ∃ a b', Board.step p a b = some b'

end Board

theorem Job.writeLog_le {p : Platform} (j : Job p) {memory : ℕ → BitVec 8} {keyReg : AesBlock}
    {b : Board} (hreach : Board.Reaches p (Board.idle memory keyReg j.program) b) :
    b.writeLog.length ≤ j.tasks.length := by
  have hlength := congrArg List.length (j.writeLog_addrs hreach)
  rw [List.length_map, List.length_map, List.length_take] at hlength
  rw [Job.tasks, tasksOf, List.length_map]
  omega

theorem Job.progress {p : Platform} (j : Job p) {memory : ℕ → BitVec 8} {keyReg : AesBlock}
    {b : Board} (hreach : Board.Reaches p (Board.idle memory keyReg j.program) b)
    (hmore : b.program ≠ []) : ∃ a b', Board.step p a b = some b' := by
  obtain ⟨k, hs, -⟩ := j.sound hreach
  obtain ⟨a, b', hstep, -⟩ := hs.progress (List.append_nil b.program).symm hmore
  exact ⟨a, b', hstep⟩

/-- **Jobs are done one after the other**: each finds the board idle and the memory as the job
before it has left it. -/
theorem serial_jobs {p : Platform} {b : Board} : ∀ {jobs : List (Job p)} {past : Board}
    {memory : ℕ → BitVec 8} {keyReg : AesBlock}, past.refused = [] →
    Board.Reaches p (Board.embed past [] (Board.idle memory keyReg (jobs.flatMap Job.program))) b →
    ∃ done, b.writeLog.length = past.writeLog.length + done ∧
      Board.Serial p (jobs.flatMap Job.tasks) memory done b
  | [], past, memory, keyReg, hrefused, hreach => by
      have hrest : (Board.embed past [] (Board.idle memory keyReg [])).AtRest :=
        ⟨rfl, rfl, rfl, rfl, rfl⟩
      rcases Relation.ReflTransGen.cases_head hreach with rfl | ⟨b₁, ⟨a, hstep⟩, -⟩
      · refine ⟨0, by simp [Board.embed, Board.idle], ?_, rfl, fun _ => ⟨rfl, hrest⟩,
          fun hmore => absurd rfl hmore⟩
        simp [Board.embed, Board.idle, hrefused]
      · exact absurd (hstep.symm.trans (hrest.step a)) (Option.some_ne_none _)
  | j :: jobs, past, memory, keyReg, hrefused, hreach => by
      rw [List.flatMap_cons]
      have hstart : Board.embed past [] (Board.idle memory keyReg
          ((j :: jobs).flatMap Job.program)) =
            Board.embed past (jobs.flatMap Job.program) (Board.idle memory keyReg j.program) := by
        simp [Board.embed, Board.idle]
      rw [hstart] at hreach
      rcases Interleaving.Reaches.split (fun b : Board => b.program = [])
        (fun a b => Board.step_embed p past (jobs.flatMap Job.program) a b) hreach with
        ⟨b₁, hreach₁, hmore, rfl⟩ | ⟨b₁, hreach₁, hover, hrest⟩
      · refine ⟨b₁.writeLog.length, List.length_append, ?_, ?_, fun hdone => ?_, fun _ => ?_⟩
        · show past.refused ++ b₁.refused = []
          rw [hrefused, j.refused_eq hreach₁, List.nil_append]
        · rw [List.take_append_of_le_length (j.writeLog_le hreach₁)]
          exact j.memory_eq hreach₁
        · exact absurd (List.append_eq_nil_iff.mp hdone).1 hmore
        · obtain ⟨a, b', hstep⟩ := j.progress hreach₁ hmore
          refine ⟨a, Board.embed past (jobs.flatMap Job.program) b', ?_⟩
          rw [Board.step_embed p past _ a b₁ hmore, hstep]
          rfl
      · obtain ⟨hall, hread, hwrite, hentering, hleaving⟩ := j.finished hreach₁ hover
        rw [Board.embed_of_atRest past _ ⟨hover, hread, hwrite, hentering, hleaving⟩] at hrest
        have hrefused' : (Board.embed past [] b₁).refused = [] := by
          show past.refused ++ b₁.refused = []
          rw [hrefused, j.refused_eq hreach₁, List.nil_append]
        obtain ⟨done, hdone, hserial⟩ := serial_jobs hrefused' hrest
        refine ⟨j.tasks.length + done, ?_, hserial.refused, ?_, fun hend => ?_, hserial.progress⟩
        · rw [hdone, ← hall]
          show (past.writeLog ++ b₁.writeLog).length + done = _
          rw [List.length_append, Nat.add_assoc]
        · rw [List.take_length_add_append, sequential_append, hserial.memory, j.memory_eq hreach₁,
            hall, List.take_length]
        · obtain ⟨hlength, hrest⟩ := hserial.finished hend
          exact ⟨by rw [List.length_append, hlength], hrest⟩

/-- Jobs can always be brought to their end. -/
theorem exists_end_jobs {p : Platform} {jobs : List (Job p)} {past b : Board}
    {memory : ℕ → BitVec 8} {keyReg : AesBlock} (hrefused : past.refused = [])
    (hreach : Board.Reaches p
      (Board.embed past [] (Board.idle memory keyReg (jobs.flatMap Job.program))) b) :
    ∃ b', Board.Reaches p b b' ∧ b'.program = [] := by
  have hgoes : ∀ b, Board.Reaches p
      (Board.embed past [] (Board.idle memory keyReg (jobs.flatMap Job.program))) b →
      ¬ b.program = [] → ∃ a b', Board.step p a b = some b' ∧ Board.Reaches p
        (Board.embed past [] (Board.idle memory keyReg (jobs.flatMap Job.program))) b' ∧
          b'.work < b.work := by
    intro b hreach hmore
    obtain ⟨done, -, hserial⟩ := serial_jobs hrefused hreach
    obtain ⟨a, b', hstep⟩ := hserial.progress hmore
    exact ⟨a, b', hstep, Relation.ReflTransGen.tail hreach ⟨a, hstep⟩, Board.work_lt hstep⟩
  obtain ⟨b', hreach', -, hend⟩ := Interleaving.reaches_of_measure Board.work hgoes hreach
  exact ⟨b', hreach', hend⟩

section serial
variable {p : Platform}

/-- What `aes_hw_init` and the calls do, as a sequential program. -/
def driverTasks (dummy : ℕ) (calls : List (Call p)) : List Task :=
  tasksOf 0 [dummy] ++ calls.flatMap Call.tasks

section driver
variable {memory : ℕ → BitVec 8} {keyReg : AesBlock} {dummy : ℕ} {calls : List (Call p)} {b : Board}
  (hblocking : ∀ c ∈ calls, c.function.isBlocking = true)
include hblocking

/-- The program of the driver as jobs. -/
theorem driverStart_jobs (memory : ℕ → BitVec 8) (keyReg : AesBlock) (dummy : ℕ) :
    ∃ jobs : List (Job p), driverStart memory keyReg dummy calls =
      Board.embed (Board.idle memory keyReg []) []
        (Board.idle memory keyReg (jobs.flatMap Job.program)) ∧
      jobs.flatMap Job.tasks = driverTasks dummy calls := by
  obtain ⟨j, hprogram, htasks⟩ := exists_job_init (p := p) dummy
  obtain ⟨jobs, hprograms, htasks'⟩ := exists_jobs 1 hblocking
  refine ⟨j :: jobs, ?_, ?_⟩
  · simp [driverStart, Board.embed, Board.idle, hprogram, hprograms]
  · rw [List.flatMap_cons, htasks, htasks', driverTasks]

theorem serial_driver (hreach : Board.Reaches p (driverStart memory keyReg dummy calls) b) :
    Board.Serial p (driverTasks dummy calls) memory b.writeLog.length b := by
  obtain ⟨jobs, hstart, htasks⟩ := driverStart_jobs hblocking memory keyReg dummy
  rw [hstart] at hreach
  obtain ⟨done, hdone, hserial⟩ := serial_jobs rfl hreach
  rw [hdone, ← htasks]
  exact (Nat.zero_add done).symm ▸ hserial

theorem exists_end_driver (hreach : Board.Reaches p (driverStart memory keyReg dummy calls) b) :
    ∃ b', Board.Reaches p b b' ∧ b'.program = [] := by
  obtain ⟨jobs, hstart, -⟩ := driverStart_jobs hblocking memory keyReg dummy
  rw [hstart] at hreach
  exact exists_end_jobs rfl hreach

end driver

/-- **Blocking calls are serial**: in every interleaving of the processor, the two channels and
the core, the memory is that of the sequential program after as many blocks as have been written,
whatever buffers the calls share; no transfer is refused, at the end all blocks are encrypted and
nothing is under way, and the end can always be reached. -/
theorem blocking_serialize (p : Platform) (memory : ℕ → BitVec 8) (keyReg : AesBlock) (dummy : ℕ)
    (calls : List (Call p)) (hblocking : ∀ c ∈ calls, c.function.isBlocking = true) (b : Board)
    (hreach : Board.Reaches p (driverStart memory keyReg dummy calls) b) :
    b.refused = [] ∧
      b.memory = sequential p ((driverTasks dummy calls).take b.writeLog.length) memory ∧
      (b.program = [] → b.memory = sequential p (driverTasks dummy calls) memory ∧ b.AtRest) ∧
      ∃ b', Board.Reaches p b b' ∧ b'.program = [] := by
  have hserial := serial_driver hblocking hreach
  refine ⟨hserial.refused, hserial.memory, fun hend => ?_, exists_end_driver hblocking hreach⟩
  obtain ⟨hlength, hrest⟩ := hserial.finished hend
  refine ⟨?_, hrest⟩
  rw [hserial.memory, hlength, List.take_length]

/-- Two calls with different keys for buffers that overlap. -/
def overlappingCalls : List (Call .configured) :=
  [⟨.encryptFlushingLarge, 1, AesHw.threeChunks, fun h => by cases h⟩,
    ⟨.encrypt, 2, ⟨0x100008, 7, by decide, by decide⟩, fun _ => by decide⟩]

theorem blocking_serialize_overlapping :
    let memory : ℕ → BitVec 8 := fun a => BitVec.ofNat 8 a
    ∃ b, Board.Reaches .configured (driverStart memory 0 0x80000 overlappingCalls) b ∧
      b.program = [] ∧ b.refused = [] ∧
      b.memory = sequential .configured (driverTasks 0x80000 overlappingCalls) memory ∧
      b.AtRest := by
  intro memory
  have hblocking : ∀ c ∈ overlappingCalls, c.function.isBlocking = true := by
    simp [overlappingCalls, DriverFunction.isBlocking]
  obtain ⟨-, -, -, b, hreach, hend⟩ := blocking_serialize .configured memory 0 0x80000
    overlappingCalls hblocking _ (Interleaving.Reaches.refl _)
  obtain ⟨hrefused, -, hdone, -⟩ := blocking_serialize .configured memory 0 0x80000
    overlappingCalls hblocking b hreach
  exact ⟨b, hreach, hend, hrefused, hdone hend⟩

/-- **Blocking calls come to an end**: in whatever order the processor, the two channels and the
core do their steps, there are no more of them than there is work at the start, and they go on until
the program is over, all blocks are encrypted and nothing is under way. -/
theorem blocking_terminates (p : Platform) (memory : ℕ → BitVec 8) (keyReg : AesBlock) (dummy : ℕ)
    (calls : List (Call p)) (hblocking : ∀ c ∈ calls, c.function.isBlocking = true)
    (order : List Actor) (b : Board)
    (hrun : Interleaving.runs (Board.step p) order (driverStart memory keyReg dummy calls) =
      some b) :
    order.length + b.work ≤ (driverStart memory keyReg dummy calls).work ∧
      ((∀ a, Board.step p a b = none) →
        b.program = [] ∧ b.memory = sequential p (driverTasks dummy calls) memory ∧ b.AtRest) := by
  refine ⟨Board.runs_length_le hrun, fun hstuck => ?_⟩
  have hserial := serial_driver hblocking (Interleaving.reaches_of_runs hrun)
  have hend : b.program = [] := by
    by_contra hmore
    obtain ⟨a, b', hstep⟩ := hserial.progress hmore
    exact absurd ((hstuck a).symm.trans hstep) (Option.some_ne_none b').symm
  obtain ⟨hlength, hrest⟩ := hserial.finished hend
  refine ⟨hend, ?_, hrest⟩
  rw [hserial.memory, hlength, List.take_length]

theorem blocking_terminates_overlapping :
    let memory : ℕ → BitVec 8 := fun a => BitVec.ofNat 8 a
    let start := driverStart memory 0 0x80000 overlappingCalls
    ∃ order b, Interleaving.runs (Board.step .configured) order start = some b ∧
      order.length + b.work ≤ start.work ∧ (∀ a, Board.step .configured a b = none) ∧
      b.memory = sequential .configured (driverTasks 0x80000 overlappingCalls) memory ∧
      b.AtRest := by
  intro memory start
  have hblocking : ∀ c ∈ overlappingCalls, c.function.isBlocking = true := by
    simp [overlappingCalls, DriverFunction.isBlocking]
  obtain ⟨b, hreach, hend⟩ := exists_end_driver (p := .configured) hblocking
    (Interleaving.Reaches.refl start)
  obtain ⟨order, hrun⟩ := Interleaving.exists_runs_of_reaches hreach
  have hstuck : ∀ a, Board.step .configured a b = none :=
    ((serial_driver hblocking hreach).finished hend).2.step
  obtain ⟨hlength, hdone⟩ := blocking_terminates .configured memory 0 0x80000 overlappingCalls
    hblocking order b hrun
  exact ⟨order, b, hrun, hlength, hstuck, (hdone hstuck).2⟩

end serial

end AesAccelerator

import AesAccelerator.CoreProgress
import AesAccelerator.DesignRefinement

/-! # The block design finishes its program

An orderly program runs to its end on the block design, if none of the parts is held up for ever
(`Fair`).  The measure is the work that the board has still to do.  It never grows, because the
design refines the board; were it to stay the same from some cycle on, the state of the board would
too, and what is due in this state (`Board.Due`) would be done when it is next its turn. -/

namespace AesAccelerator

namespace Board

section due
variable {p : Platform} {b b' : Board}

/-! ### What is due -/

/-- The next step that the processor, the engine or the core can do. -/
inductive Due (p : Platform) (b : Board) : Prop
  | processor {b' : Board} (h : b.processor p = some b')
  | store {b' : Board} (h : b.dmaWrite = some b')
  | core (hleaving : b.leaving = []) (hentering : b.entering ≠ [])
  | fetch {t : Transfer} (hentering : b.entering = []) (ht : b.dmaToDevice = some t)
      (hlt : t.index < t.request.blocks)

theorem Flow.due (hf : b.Flow) {t : Transfer} (ht : b.deviceToDma = some t) : Due p b := by
  cases hl : b.leaving with
  | cons item rest => exact .store (dmaWrite_iff.mpr ⟨t, item, rest, ht, hl, hf.writing t ht, rfl⟩)
  | nil =>
      cases he : b.entering with
      | cons item rest => exact .core hl (by rw [he]; exact List.cons_ne_nil _ _)
      | nil =>
          -- nothing is in the core, so the block to be written is still to be read
          have hpre := hf.rest_prefix
          rw [ht, hl, he, restOf, Transfer.rest_eq_cons (hf.writing t ht)] at hpre
          cases hr : b.dmaToDevice with
          | none =>
              rw [hr] at hpre
              exact absurd (List.prefix_nil.mp hpre) (List.cons_ne_nil _ _)
          | some t' => exact .fetch he hr (hf.reading t' hr)

theorem execute_none {i : Instr} (h : b.execute p i = none) :
    ∃ channel, i.action = some (.whileBusy channel) ∧ b.busy channel = true := by
  obtain ⟨call, action⟩ := i
  cases action with
  | none => exact absurd h (Option.some_ne_none _)
  | some action =>
      cases action with
      | writeKey | reset | simpleTransfer | dCacheFlushRange | dCacheInvalidateRange =>
          exact absurd h (Option.some_ne_none _)
      | whileBusy channel =>
          simp only [execute] at h
          split_ifs at h with hbusy
          exact ⟨channel, rfl, hbusy⟩

/-- As long as a safe program is not over, something is due. -/
theorem Sound.due {blocking : ℕ → Prop} {all : List Request} {k : Known}
    (hs : Sound p blocking all k b.program b) (hmore : b.program ≠ []) : Due p b := by
  obtain ⟨i, rest, hp⟩ := List.exists_cons_of_ne_nil hmore
  cases hexec : ({ b with program := rest } : Board).execute p i with
  | some b' => exact .processor (processor_iff.mpr ⟨i, rest, hp, hexec⟩)
  | none =>
      obtain ⟨channel, hi, hbusy⟩ := execute_none hexec
      obtain ⟨t, ht⟩ : ∃ t, b.deviceToDma = some t := by
        by_contra hidle
        have hidle : b.deviceToDma = none := Option.eq_none_iff_forall_ne_some.mpr
          fun t ht => hidle ⟨t, ht⟩
        cases channel with
        | deviceToDma =>
            rw [busy, hidle] at hbusy
            cases hbusy
        | dmaToDevice =>
            have hsafe := hs.safe
            rw [hp] at hsafe
            obtain ⟨call, action⟩ := i
            obtain rfl : action = some (.whileBusy .dmaToDevice) := hi
            have hread := (hs.flow.drained hidle (hs.knows.reads_eq hsafe.1)).1
            have hbusy : b.dmaToDevice.isSome = true := hbusy
            rw [hread] at hbusy
            cases hbusy
      exact hs.flow.due ht

/-! ### The work that is left -/

theorem eq_or_work_lt (h : Reaches p b b') : b' = b ∨ b'.work < b.work := by
  induction h with
  | refl => exact Or.inl rfl
  | tail _ hstep ih =>
      obtain ⟨a, hstep⟩ := hstep
      have hlt := work_lt hstep
      right
      rcases ih with rfl | ih
      · exact hlt
      · exact hlt.trans ih

/-- Without progress on the whole there is none in between. -/
theorem eq_of_reaches (h : Reaches p b b') (h' : Reaches p b' b) : b' = b := by
  rcases eq_or_work_lt h with heq | hlt
  · exact heq
  · rcases eq_or_work_lt h' with heq | hlt'
    · exact heq.symm
    · omega

theorem not_step_self (a : Actor) : step p a b ≠ some b := fun h =>
  lt_irrefl _ (work_lt h)

end due

end Board

namespace Design

/-- None of the parts is held up for ever. -/
structure Fair (cycles : ℕ → Cycle) : Prop where
  activity : ∀ a n, ∃ m, n ≤ m ∧ a ∈ (cycles m).activities
  keyWrite : ∀ n, ∃ m, n ≤ m ∧ (cycles m).keyWrite = .last
  writeTready : ∀ n, ∃ m, n ≤ m ∧ (cycles m).writeTready = true

/-! ### What is due is done -/

section still
variable {d : Buffers} {s : Design} {b' : Board}

theorem act_store_ne (hw : s.toBoard.dmaWrite = some b') :
    (s.act d .store).toBoard ≠ s.toBoard := by
  obtain ⟨t, item, rest, ht, hleaving, hlt, rfl⟩ := Board.dmaWrite_iff.mp hw
  have hw' : s.board.dmaWrite = some (s.board.afterWrite t item rest) :=
    Board.dmaWrite_iff.mpr ⟨t, item, rest, ht, hleaving, hlt, rfl⟩
  have hstep := step_of_store (d := d) hw'
  rw [act, hw']
  exact fun h => Board.not_step_self .dmaWrite (hstep.trans (congrArg some h))

theorem act_fetch_ne (hinside : s.inside.length ≤ 11) (hroom : s.board.leaving.length ≤ d.behind)
    (hbefore : 0 < d.before) (hentering : s.toBoard.entering = []) {t : Transfer}
    (ht : s.toBoard.dmaToDevice = some t) (hlt : t.index < t.request.blocks) :
    (s.act d .fetch).toBoard ≠ s.toBoard := by
  have hnil : s.board.entering = [] := (List.append_eq_nil_iff.mp hentering).2
  have hf : s.board.fetch d = some (s.board.afterRead t) :=
    Board.fetch_iff.mpr ⟨t, ht, hlt, by rw [hnil]; exact hbefore, rfl⟩
  have hstep := step_of_fetch hinside hroom hf
  rw [act, hf]
  exact fun h => Board.not_step_self .dmaRead (hstep.trans (congrArg some h))

theorem act_processor_ne (hkey : s.board.keyToWrite.isSome = false)
    (hp : s.toBoard.processor d.platform = some b') :
    (s.act d .processor).toBoard ≠ s.toBoard := by
  have hmap : (s.board.processor d.platform).map (Board.refill (s.inside ++ s.board.entering)) =
      some b' := (Board.processor_refill d.platform s.board _).symm.trans hp
  obtain ⟨b'', hp', -⟩ := Option.map_eq_some_iff.mp hmap
  have hstep := step_of_processor hp'
  rw [act, if_neg (by simp [hkey]), hp']
  exact fun h => Board.not_step_self .processor (hstep.trans (congrArg some h))

theorem writeKey_ne (hkey : s.board.keyToWrite.isSome = true) :
    (s.writeKey d .last).toBoard ≠ s.toBoard := fun h =>
  Board.not_step_self .processor ((step_of_writeKey hkey).trans (congrArg some h))

/-- When nothing changes on the whole, no single activity changes anything. -/
theorem Linked.acts_still [Rom256x1] {x : Run} {m : ℕ} (hl : Linked x m d s)
    {activities : List Activity} {a : Activity} (ha : a ∈ activities)
    (hstill : (activities.foldl (Design.act d) s).toBoard = s.toBoard) :
    ∃ s', Linked x m d s' ∧ s'.toBoard = s.toBoard ∧ (s'.act d a).toBoard = s'.toBoard := by
  obtain ⟨first, rest, rfl⟩ := List.append_of_mem ha
  rw [List.foldl_append, List.foldl_cons] at hstill
  obtain ⟨hl', hreach⟩ := hl.acts first
  have hact := act_reaches hl'.inside_le hl'.room a
  have hrest := ((hl'.act a).acts rest).2
  rw [hstill] at hrest
  have hsame := Board.eq_of_reaches hreach (hact.trans hrest)
  refine ⟨_, hl', hsame, ?_⟩
  rw [hsame] at hact ⊢
  exact Board.eq_of_reaches hact hrest

end still

/-! ### The work never grows -/

section progress
variable [Rom256x1] {d : Buffers} {powerUp : Core} {memory : ℕ → BitVec 8} {keyReg : AesBlock}
  {program : List Instr} {cycles : ℕ → Cycle} {n : ℕ} (ho : Orderly d.platform program)
include ho

theorem reaches_succ (n : ℕ) : Board.Reaches d.platform
    (state d powerUp (Board.idle memory keyReg program) cycles n).toBoard
    (state d powerUp (Board.idle memory keyReg program) cycles (n + 1)).toBoard := by
  obtain ⟨hreach₁, hreach₂, hl⟩ := (inStep powerUp memory keyReg cycles ho n).edge ho
  exact hreach₁.trans (hreach₂.trans (hl.acts (cycles n).activities).2)

theorem reaches_of_le {m : ℕ} (hm : n ≤ m) : Board.Reaches d.platform
    (state d powerUp (Board.idle memory keyReg program) cycles n).toBoard
    (state d powerUp (Board.idle memory keyReg program) cycles m).toBoard := by
  induction m, hm using Nat.le_induction with
  | base => exact Interleaving.Reaches.refl _
  | succ m hm ih => exact ih.trans (reaches_succ ho m)

/-- From cycle `n` on the board stays as it is. -/
def Still (d : Buffers) (powerUp : Core) (b : Board) (cycles : ℕ → Cycle) (n : ℕ) : Prop :=
  ∀ m, n ≤ m → (state d powerUp b cycles m).toBoard = (state d powerUp b cycles n).toBoard

section still
variable (hstill : Still d powerUp (Board.idle memory keyReg program) cycles n)
include hstill

theorem Still.edge {m : ℕ} (hm : n ≤ m) :
    let s := state d powerUp (Board.idle memory keyReg program) cycles m
    let s₁ := s.stream d (cycles m)
    let s₂ := s₁.writeKey d (cycles m).keyWrite
    s₁.toBoard = s.toBoard ∧ s₂.toBoard = s₁.toBoard ∧
      ((cycles m).activities.foldl (act d) s₂).toBoard = s₂.toBoard := by
  intro s s₁ s₂
  obtain ⟨hreach₁, hreach₂, hl⟩ := (inStep powerUp memory keyReg cycles ho m).edge ho
  have hreach₃ : Board.Reaches d.platform s₂.toBoard s.toBoard := by
    have hreach := (hl.acts (cycles m).activities).2
    rwa [← step, ← state_succ, hstill _ (hm.trans (Nat.le_succ m)), ← hstill m hm] at hreach
  have hsame₁ : s₁.toBoard = s.toBoard := Board.eq_of_reaches hreach₁ (hreach₂.trans hreach₃)
  have hsame₂ : s₂.toBoard = s₁.toBoard :=
    Board.eq_of_reaches hreach₂ (hreach₃.trans hreach₁)
  refine ⟨hsame₁, hsame₂, ?_⟩
  rw [hsame₂, hsame₁, ← step, ← state_succ, hstill _ (hm.trans (Nat.le_succ m)), ← hstill m hm]

/-! ### The core -/

theorem Still.delivers {m : ℕ} (hm : n ≤ m) :
    (state d powerUp (Board.idle memory keyReg program) cycles m).delivers d (cycles m) = false := by
  by_contra hd
  have hin := inStep powerUp memory keyReg cycles ho m
  have hstep := (runs (Board.idle memory keyReg program) m).step_of_delivers hin.linked
    (Run.shadowed _ m) hin.undisturbed ((Bool.not_eq_false _).mp hd)
  rw [(hstill.edge ho hm).1] at hstep
  exact Board.not_step_self .core hstep

theorem Still.delivered {m : ℕ} (hm : n ≤ m) :
    (coreRun d powerUp (Board.idle memory keyReg program) cycles).delivered (m + 1) =
      (coreRun d powerUp (Board.idle memory keyReg program) cycles).delivered (n + 1) := by
  induction m, hm using Nat.le_induction with
  | base => rfl
  | succ m hm ih =>
      rw [Run.delivered_step rfl, ih, coreRun_delivers, hstill.delivers ho hm]
      exact List.append_nil _

variable (hfair : Fair cycles) (hbehind : 0 < d.behind)
  (hleaving : (state d powerUp (Board.idle memory keyReg program) cycles n).toBoard.leaving = [])
  (hentering : (state d powerUp (Board.idle memory keyReg program) cycles n).toBoard.entering ≠ [])
include hfair hbehind hleaving hentering

/-- With blocks under way no key is written, and there is room for what the core delivers. -/
theorem Still.settles :
    (coreRun d powerUp (Board.idle memory keyReg program) cycles).Settles (n + 1) where
  rst
    | _ + 1, _ => rfl
  aesKeyWrite
    | k + 1, hk => by
        show (state d powerUp (Board.idle memory keyReg program) cycles k).aesKeyWrite (cycles k) =
          false
        by_contra hw
        have hkey := aesKeyWrite_keyToWrite ((Bool.not_eq_false _).mp hw)
        obtain ⟨-, -, hinside, hnil⟩ := quiet ho (inStep powerUp memory keyReg cycles ho k).reach hkey
        apply hentering
        rw [← hstill k (Nat.le_of_succ_le_succ hk)]
        exact List.append_eq_nil_iff.mpr ⟨hinside, hnil⟩
  writeTready k := by
    obtain ⟨m, hm, hready⟩ := hfair.writeTready (max k n)
    refine ⟨m + 1, (le_max_left k n).trans (hm.trans (Nat.le_succ m)), ?_⟩
    have hempty : (state d powerUp (Board.idle memory keyReg program) cycles m).board.leaving =
        [] := by
      have hsame := congrArg Board.leaving (hstill m ((le_max_right k n).trans hm))
      exact hsame.trans hleaving
    show ((cycles m).writeTready && _) = true
    simp [hready, hempty, hbehind]

theorem Still.not_core : False := by
  set x := coreRun d powerUp (Board.idle memory keyReg program) cycles
  have hs : x.Settles (n + 1) := hstill.settles ho hfair hbehind hleaving hentering
  have hin := inStep powerUp memory keyReg cycles ho n
  have hlength : (x.accepted (n + 1)).length = (x.delivered (n + 1)).length +
      (state d powerUp (Board.idle memory keyReg program) cycles n).inside.length := by
    rw [Run.length_accepted_eq, hin.undisturbed.taken, List.length_map, hin.linked.inside_length]
  -- some block is accepted and not delivered yet
  obtain ⟨k, hk, hmore⟩ : ∃ k, n + 1 ≤ k ∧
      (x.delivered (n + 1)).length < (x.accepted k).length := by
    cases hinside : (state d powerUp (Board.idle memory keyReg program) cycles n).inside with
    | cons i rest =>
        rw [hinside, List.length_cons] at hlength
        exact ⟨n + 1, le_rfl, by omega⟩
    | nil =>
        have hoffer : x.offers (n + 1) = true := by
          refine (offers_iff n).mpr fun hnil => hentering ?_
          exact List.append_eq_nil_iff.mpr ⟨hinside, hnil⟩
        obtain ⟨k, hk, hacc, -⟩ := hs.exists_accepts coreRun_sourceHolds le_rfl hoffer
        refine ⟨k + 1, hk.trans (Nat.le_succ k), ?_⟩
        have hle := (hs.accepted_grows le_rfl hk).length_le
        rw [Run.accepted_step (hs.rst k hk), hacc, List.length_append]
        simp only [if_true, List.length_singleton]
        omega
  obtain ⟨m, hm, hdeparted, hdelivered⟩ := hs.exists_delivered hk
  have hle := hdeparted.length_le
  have hle' := hdelivered.length_le
  rw [List.length_map] at hle hle'
  obtain ⟨j, rfl⟩ := Run.exists_succ_of_not_rst (hs.rst m (hk.trans hm))
  have hsame : x.delivered (j + 1) = x.delivered (n + 1) :=
    hstill.delivered ho (Nat.le_of_succ_le_succ (hk.trans hm))
  rw [hsame] at hle'
  omega

end still

/-! ### The end -/

variable (hfair : Fair cycles) (hbefore : 0 < d.before) (hbehind : 0 < d.behind)
include hfair hbefore hbehind

/-- The board stays as it is only when the program is over. -/
theorem Still.over (hstill : Still d powerUp (Board.idle memory keyReg program) cycles n) :
    (state d powerUp (Board.idle memory keyReg program) cycles n).board.program = [] := by
  set s := state d powerUp (Board.idle memory keyReg program) cycles n with hs
  by_contra hmore
  obtain ⟨k, hsound, -⟩ :=
    Board.sound_of_orderly ho (inStep powerUp memory keyReg cycles ho n).reach
  have hmore' : s.toBoard.program ≠ [] := hmore
  -- what an activity would do it does when it is next its turn
  have hactivity : ∀ a, ∃ s' : Design, s'.toBoard = s.toBoard ∧ s'.inside.length ≤ 11 ∧
      s'.board.leaving.length ≤ d.behind ∧ (s'.act d a).toBoard = s'.toBoard := by
    intro a
    obtain ⟨m, hm, ha⟩ := hfair.activity a n
    obtain ⟨hsame₁, hsame₂, hsame₃⟩ := hstill.edge ho hm
    obtain ⟨-, -, hl⟩ := (inStep powerUp memory keyReg cycles ho m).edge ho
    obtain ⟨s', hl', hsame, hact⟩ := hl.acts_still ha hsame₃
    exact ⟨s', hsame.trans (hsame₂.trans (hsame₁.trans (hstill m hm))), hl'.inside_le, hl'.room, hact⟩
  cases hsound.due hmore' with
  | processor hp =>
      cases hkey : s.toBoard.keyToWrite.isSome with
      | true =>
          obtain ⟨m, hm, hlast⟩ := hfair.keyWrite n
          obtain ⟨hsame₁, hsame₂, -⟩ := hstill.edge ho hm
          rw [hlast] at hsame₂
          refine writeKey_ne ?_ hsame₂
          have hkey' := congrArg (fun b : Board => b.keyToWrite.isSome)
            (hsame₁.trans (hstill m hm))
          exact hkey'.trans hkey
      | false =>
          obtain ⟨s', hsame, -, -, hact⟩ := hactivity .processor
          refine act_processor_ne ?_ (hsame ▸ hp) hact
          exact (congrArg (fun b : Board => b.keyToWrite.isSome) hsame).trans hkey
  | store hw =>
      obtain ⟨s', hsame, -, -, hact⟩ := hactivity .store
      exact act_store_ne (hsame ▸ hw) hact
  | core hleaving hentering => exact hstill.not_core ho hfair hbehind hleaving hentering
  | fetch hentering ht hlt =>
      obtain ⟨s', hsame, hinside, hroom, hact⟩ := hactivity .fetch
      exact act_fetch_ne hinside hroom hbefore (hsame ▸ hentering) (hsame ▸ ht) hlt hact

/-- An orderly program comes to its end. -/
theorem exists_end (powerUp : Core) (memory : ℕ → BitVec 8) (keyReg : AesBlock) : ∃ n,
    (state d powerUp (Board.idle memory keyReg program) cycles n).board.program = [] := by
  obtain ⟨n, -, hend⟩ := Clocked.exists_of_falling (t := 0)
    (P := fun n => (state d powerUp (Board.idle memory keyReg program) cycles n).board.program = [])
    (fun n => (state d powerUp (Board.idle memory keyReg program) cycles n).toBoard.work)
    fun n _ hmore => by
      by_contra hnever
      refine hmore (Still.over ho hfair hbefore hbehind fun m hm => ?_)
      refine (Board.eq_or_work_lt (reaches_of_le ho hm)).resolve_right fun hlt => ?_
      exact hnever ⟨m, hm, hlt⟩
  exact ⟨n, hend⟩

end progress

/-! ### The driver -/

section driver
variable [Rom256x1] (d : Buffers) (powerUp : Core) (memory : ℕ → BitVec 8) (keyReg : AesBlock)
  (dummy : ℕ) (calls : List (Call d.platform)) (cycles : ℕ → Cycle)

/-- The design from the start of `aes_hw_init` on. -/
def driverState : ℕ → Design := state d powerUp (driverStart memory keyReg dummy calls) cycles

variable {d calls} (hblocking : ∀ c ∈ calls, c.function.isBlocking = true)
include hblocking

theorem serial_driverState (n : ℕ) : Board.Serial d.platform (driverTasks dummy calls) memory
    (driverState d powerUp memory keyReg dummy calls cycles n).board.writeLog.length
    (driverState d powerUp memory keyReg dummy calls cycles n).toBoard :=
  serial_driver hblocking
    (inStep powerUp memory keyReg cycles (orderly_driver hblocking dummy) n).reach

omit [Rom256x1] hblocking in
theorem atRest_of_toBoard {s : Design} (h : s.toBoard.AtRest) : s.inside = [] ∧ s.board.AtRest := by
  obtain ⟨hprogram, hread, hwrite, hentering, hleaving⟩ := h
  obtain ⟨hinside, hnil⟩ := List.append_eq_nil_iff.mp hentering
  exact ⟨hinside, hprogram, hread, hwrite, hnil, hleaving⟩

/-- When the program is over, everything is done. -/
theorem done_driverState {n : ℕ}
    (hend : (driverState d powerUp memory keyReg dummy calls cycles n).board.program = []) :
    (driverState d powerUp memory keyReg dummy calls cycles n).board.memory =
        sequential d.platform (driverTasks dummy calls) memory ∧
      (driverState d powerUp memory keyReg dummy calls cycles n).toBoard.AtRest := by
  have hserial := serial_driverState powerUp memory keyReg dummy cycles hblocking n
  obtain ⟨hlength, hrest⟩ := hserial.finished hend
  have hmemory := hserial.memory
  rw [hlength, List.take_length] at hmemory
  exact ⟨hmemory, hrest⟩

end driver

/-- **Blocking calls on the block design are serial**: in every clock cycle, the memory is that of
the sequential program after as many blocks as have been written, no transfer was refused, and when
the program is over, all blocks are encrypted and nothing is in the core or in the buffers. -/
theorem blocking_calls_serial [Rom256x1] (d : Buffers) (powerUp : Core) (memory : ℕ → BitVec 8)
    (keyReg : AesBlock) (dummy : ℕ) (calls : List (Call d.platform)) (cycles : ℕ → Cycle)
    (hblocking : ∀ c ∈ calls, c.function.isBlocking = true) (n : ℕ) :
    let s := driverState d powerUp memory keyReg dummy calls cycles n
    s.board.refused = [] ∧
      s.board.memory =
        sequential d.platform ((driverTasks dummy calls).take s.board.writeLog.length) memory ∧
      (s.board.program = [] →
        s.board.memory = sequential d.platform (driverTasks dummy calls) memory ∧
          s.inside = [] ∧ s.board.AtRest) := by
  intro s
  have hserial := serial_driverState powerUp memory keyReg dummy cycles hblocking n
  refine ⟨hserial.refused, hserial.memory, fun hend => ?_⟩
  obtain ⟨hmemory, hrest⟩ := done_driverState powerUp memory keyReg dummy cycles hblocking hend
  exact ⟨hmemory, atRest_of_toBoard hrest⟩

/-- **Blocking calls on the block design come to an end**: if none of the parts is held up for ever
and there is room in the buffers, then from some cycle on all blocks are encrypted in memory. -/
theorem blocking_calls_finish [Rom256x1] (d : Buffers) (hbefore : 0 < d.before)
    (hbehind : 0 < d.behind) (powerUp : Core) (memory : ℕ → BitVec 8) (keyReg : AesBlock)
    (dummy : ℕ) (calls : List (Call d.platform))
    (hblocking : ∀ c ∈ calls, c.function.isBlocking = true) (cycles : ℕ → Cycle)
    (hfair : Fair cycles) : ∃ n, ∀ m, n ≤ m →
      let s := driverState d powerUp memory keyReg dummy calls cycles m
      s.board.memory = sequential d.platform (driverTasks dummy calls) memory ∧
        s.inside = [] ∧ s.board.AtRest := by
  have ho := orderly_driver (p := d.platform) hblocking dummy
  obtain ⟨n, hend⟩ := exists_end ho hfair hbefore hbehind powerUp memory keyReg
  obtain ⟨hmemory, hrest⟩ := done_driverState powerUp memory keyReg dummy cycles hblocking hend
  refine ⟨n, fun m hm => ?_⟩
  have hreach : Board.Reaches d.platform
      (driverState d powerUp memory keyReg dummy calls cycles n).toBoard
      (driverState d powerUp memory keyReg dummy calls cycles m).toBoard := reaches_of_le ho hm
  -- at rest the board does not change any more
  rcases Relation.ReflTransGen.cases_head hreach with hsame | ⟨b, ⟨a, hstep⟩, -⟩
  · intro s
    have hmemory' : s.board.memory = _ := (congrArg Board.memory hsame).symm.trans hmemory
    exact ⟨hmemory', atRest_of_toBoard (hsame ▸ hrest)⟩
  · exact absurd ((hrest.step a).symm.trans hstep) (Option.some_ne_none b).symm

theorem fair_steady : Fair fun _ => steady where
  activity a n := ⟨n, le_rfl, by cases a <;> decide⟩
  keyWrite n := ⟨n, le_rfl, rfl⟩
  writeTready n := ⟨n, le_rfl, rfl⟩

theorem blocking_calls_serial_twoKeys :
    let memory : ℕ → BitVec 8 := fun a => BitVec.ofNat 8 a
    let s := driverState smallBuffers Run.blank memory 0 0x80000 twoKeys (fun _ => steady) 100
    s.board.refused = [] ∧
      s.board.memory = sequential smallBuffers.platform
        ((driverTasks 0x80000 twoKeys).take s.board.writeLog.length) memory ∧
      (s.board.program = [] →
        s.board.memory = sequential smallBuffers.platform (driverTasks 0x80000 twoKeys) memory ∧
          s.inside = [] ∧ s.board.AtRest) :=
  blocking_calls_serial smallBuffers Run.blank _ 0 0x80000 twoKeys (fun _ => steady)
    twoKeys_blocking 100

theorem blocking_calls_finish_twoKeys :
    let memory : ℕ → BitVec 8 := fun a => BitVec.ofNat 8 a
    ∃ n, ∀ m, n ≤ m →
      let s := driverState smallBuffers Run.blank memory 0 0x80000 twoKeys (fun _ => steady) m
      s.board.memory = sequential smallBuffers.platform (driverTasks 0x80000 twoKeys) memory ∧
        s.inside = [] ∧ s.board.AtRest :=
  blocking_calls_finish smallBuffers (by decide) (by decide) Run.blank _ 0 0x80000 twoKeys
    twoKeys_blocking _ fair_steady

end Design

end AesAccelerator

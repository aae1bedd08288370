import AesAccelerator.Run

/-! # What a run does to the streams

Observers of a run, all of them cleared by a reset.

* `accepted` and `delivered` are the handshakes on the read and on the write stream, oldest
  first.
* `pipe` is a shadow of the pipeline: in every stage the beat that is there and the local round
  keys it has met.  `departed` are the beats that have moved out of the last stage.  Together they
  are the `passengers`: the accepted beats in order (`passengers_beats`), each with its image so
  far.

`Shadowed` says that the shadow is the pipeline: validity, `tlast` and blocks are those of the
registers (`shadowed`). -/

namespace AesAccelerator

open ShiftPipeline

/-- An accepted beat, with what is needed to say which key it should be encrypted with. -/
structure Beat where
  tdata : AesMatrix
  tlast : Bool
  /-- How many packets were complete when the beat was accepted. -/
  packet : ℕ
  /-- `aes_key` in the cycle in which the beat's packet was first offered. -/
  packetKey : AesMatrix
  /-- `aes_key` in the cycle in which the beat was accepted. -/
  aesKey : AesMatrix

/-- A beat in the pipeline and the local round keys it has met, the last one first. -/
structure Passenger where
  beat : Beat
  met : List AesMatrix

def Passenger.meet (roundKey : AesMatrix) (q : Passenger) : Passenger :=
  { q with met := roundKey :: q.met }

/-- The block and the `tlast` the passenger stands for. -/
def Passenger.output [Rom256x1] (q : Passenger) : AesMatrix × Bool :=
  (image q.beat.tdata q.met, q.beat.tlast)

namespace Run

section observers
variable [Rom256x1] (x : Run)

/-! ### Handshakes -/

def offers (n : ℕ) : Bool := (x.ports n).readTvalid

def stalls (n : ℕ) : Bool := (x.state n).stall (x.ports n)

def accepts (n : ℕ) : Bool := (x.ports n).readTvalid && (x.state n).readTready (x.ports n)

def delivers (n : ℕ) : Bool := (x.state n).writeTvalid && (x.ports n).writeTready

/-- An offered beat stays on the read stream until it is accepted, resets apart. -/
def SourceHolds : Prop :=
  ∀ n, x.rst n = false → x.rst (n + 1) = false → x.offers n = true → x.accepts n = false →
    (x.ports (n + 1)).readTvalid = true ∧ (x.ports (n + 1)).readTdata = (x.ports n).readTdata ∧
      (x.ports (n + 1)).readTlast = (x.ports n).readTlast

/-! ### Packets on the read stream -/

/-- A packet was offered in an earlier cycle and its last beat is not yet accepted. -/
def inPacket : ℕ → Bool
  | 0 => false
  | n + 1 => !x.rst n &&
      if x.offers n then !(x.accepts n && (x.ports n).readTlast) else inPacket n

/-- `aes_key` in the cycle in which the current packet was first offered. -/
def packetKey : ℕ → AesMatrix
  | 0 => (x.ports 0).aesKey
  | n + 1 => if x.inPacket (n + 1) then packetKey n else (x.ports (n + 1)).aesKey

/-- The number of packets whose last beat was accepted. -/
def packets : ℕ → ℕ
  | 0 => 0
  | n + 1 =>
      if x.rst n then 0
      else if x.accepts n && (x.ports n).readTlast then packets n + 1 else packets n

/-- Beats of the current packet have been accepted and its last one has not. -/
def packetOpen : ℕ → Bool
  | 0 => false
  | n + 1 => !x.rst n && if x.accepts n then !(x.ports n).readTlast else packetOpen n

/-- The beat offered in cycle `n`. -/
def beat (n : ℕ) : Beat where
  tdata := (x.ports n).readTdata
  tlast := (x.ports n).readTlast
  packet := x.packets n
  packetKey := x.packetKey n
  aesKey := (x.ports n).aesKey

/-! ### Beats in, blocks out -/

def accepted : ℕ → List Beat
  | 0 => []
  | n + 1 =>
      if x.rst n then []
      else if x.accepts n then accepted n ++ [x.beat n] else accepted n

def delivered : ℕ → List (AesMatrix × Bool)
  | 0 => []
  | n + 1 =>
      if x.rst n then []
      else if x.delivers n then
        delivered n ++ [((x.state n).writeTdata, (x.state n).writeTlast)]
      else delivered n

/-- What the read stream would put into the pipeline in cycle `n`. -/
def entering (n : ℕ) : Option Passenger := if x.offers n then some ⟨x.beat n, []⟩ else none

def pipe : ℕ → Fin 11 → Option Passenger
  | 0 => fun _ => none
  | n + 1 =>
      if x.rst n then fun _ => none
      else if x.stalls n then pipe n
      else fun k => (advance (x.entering n) (pipe n) k).map
        (Passenger.meet ((x.state n).rounder1.roundKeys k))

def departed : ℕ → List Passenger
  | 0 => []
  | n + 1 =>
      if x.rst n then []
      else if x.stalls n then departed n
      else departed n ++ (x.pipe n (Fin.last 10)).toList

/-- Every accepted beat, oldest first. -/
def passengers (n : ℕ) : List Passenger := x.departed n ++ occupants (x.pipe n)

/-- The number of valid entries in `parallel_status_pipeline`. -/
def validEntries (n : ℕ) : ℕ :=
  (Finset.univ.filter fun k => ((x.state n).rounder1.parallelStatusPipeline k).valid = true).card

/-! ### One cycle of the observers -/

section cycle
variable {x} {n : ℕ}

theorem accepts_eq : x.accepts n = (x.offers n && !x.stalls n) := rfl

theorem entering_toList :
    (x.entering n).toList = if x.offers n then [⟨x.beat n, []⟩] else [] := by
  unfold entering
  split <;> rfl

theorem pipe_reset (h : x.rst n = true) : x.pipe (n + 1) = fun _ => none := by
  simp [pipe, h]

theorem pipe_stall (h : x.rst n = false) (hs : x.stalls n = true) :
    x.pipe (n + 1) = x.pipe n := by
  simp [pipe, h, hs]

theorem pipe_move (h : x.rst n = false) (hs : x.stalls n = false) (k : Fin 11) :
    x.pipe (n + 1) k = (advance (x.entering n) (x.pipe n) k).map
      (Passenger.meet ((x.state n).rounder1.roundKeys k)) := by
  simp [pipe, h, hs]

theorem status_reset (h : x.rst n = true) :
    (x.state (n + 1)).rounder1.parallelStatusPipeline = fun _ => ⟨false, false⟩ :=
  (Rounder.step_reset (p := (x.state n).rounderPorts (x.ports n)) h).2.2.2

theorem status_stall (h : x.rst n = false) (hs : x.stalls n = true) :
    (x.state (n + 1)).rounder1.parallelStatusPipeline =
      (x.state n).rounder1.parallelStatusPipeline :=
  Rounder.step_status_of_stall (p := (x.state n).rounderPorts (x.ports n)) h hs

theorem status_move (h : x.rst n = false) (hs : x.stalls n = false) :
    (x.state (n + 1)).rounder1.parallelStatusPipeline =
      advance ⟨(x.ports n).readTvalid, (x.ports n).readTlast⟩
        (x.state n).rounder1.parallelStatusPipeline :=
  Rounder.step_status_of_move (p := (x.state n).rounderPorts (x.ports n)) h hs

theorem blocks_stall (h : x.rst n = false) (hs : x.stalls n = true) :
    (x.state (n + 1)).rounder1.blocks = (x.state n).rounder1.blocks :=
  Rounder.step_blocks_of_stall (p := (x.state n).rounderPorts (x.ports n)) h hs

theorem blocks_move (h : x.rst n = false) (hs : x.stalls n = false) (k : Fin 11) :
    (x.state (n + 1)).rounder1.blocks k = stage k ((x.state n).rounder1.roundKeys k)
      (advance (x.ports n).readTdata (x.state n).rounder1.blocks k) :=
  Rounder.step_blocks_of_move (p := (x.state n).rounderPorts (x.ports n)) h hs k

theorem passengers_reset (h : x.rst n = true) : x.passengers (n + 1) = [] := by
  simp only [passengers, departed, pipe, h, if_true]
  exact occupants_empty fun _ => rfl

theorem passengers_stall (h : x.rst n = false) (hs : x.stalls n = true) :
    x.passengers (n + 1) = x.passengers n := by
  simp [passengers, departed, pipe, h, hs]

theorem accepted_reset (h : x.rst n = true) : x.accepted (n + 1) = [] := by
  simp [accepted, h]

theorem accepted_step (h : x.rst n = false) :
    x.accepted (n + 1) = x.accepted n ++ if x.accepts n then [x.beat n] else [] := by
  rw [accepted, if_neg (by simp [h])]
  split <;> simp

theorem delivered_step (h : x.rst n = false) : x.delivered (n + 1) = x.delivered n ++
    if x.delivers n then [((x.state n).writeTdata, (x.state n).writeTlast)] else [] := by
  rw [delivered, if_neg (by simp [h])]
  split <;> simp

end cycle

/-- When the pipeline moves, the offered beat joins the passengers. -/
theorem passengers_move {n : ℕ} (h : x.rst n = false) (hs : x.stalls n = false) :
    (x.passengers (n + 1)).map Passenger.beat =
      (x.passengers n ++ (x.entering n).toList).map Passenger.beat := by
  have hdeparted : x.departed (n + 1) = x.departed n ++ (x.pipe n (Fin.last 10)).toList := by
    simp [departed, h, hs]
  have hmet : (occupants (x.pipe (n + 1))).map Passenger.beat =
      (occupants (advance (x.entering n) (x.pipe n))).map Passenger.beat := by
    rw [funext (pipe_move h hs)]
    exact occupants_map fun _ _ => rfl
  unfold passengers
  rw [List.map_append, hmet, hdeparted, ← List.map_append, List.append_assoc,
    occupants_advance, ← List.append_assoc]

/-- **The passengers are the accepted beats**, in order, whatever the environment does. -/
theorem passengers_beats : ∀ n, (x.passengers n).map Passenger.beat = x.accepted n
  | 0 => by
      simp only [passengers, departed, pipe, accepted, List.nil_append]
      rw [occupants_empty fun _ => rfl, List.map_nil]
  | n + 1 => by
      cases h : x.rst n with
      | true => rw [passengers_reset h, accepted_reset h, List.map_nil]
      | false =>
          rw [accepted_step h, accepts_eq, ← passengers_beats n]
          cases hs : x.stalls n with
          | true => simp [passengers_stall h hs]
          | false =>
              rw [passengers_move x h hs, List.map_append, entering_toList]
              cases x.offers n <;> rfl

/-! ### The shadow is the pipeline -/

/-- What the registers of stage `k` hold for the beat that is there. -/
structure Shadows (r : Rounder) (k : Fin 11) (q : Passenger) : Prop where
  last : (r.parallelStatusPipeline k).last = q.beat.tlast
  block : r.blocks k = image q.beat.tdata q.met
  met : q.met.length = k + 1

/-- The valid stages are those with a passenger, and the registers hold what is said of it. -/
def Shadowed (n : ℕ) : Prop := ∀ k : Fin 11,
  ((x.state n).rounder1.parallelStatusPipeline k).valid = (x.pipe n k).isSome ∧
    ∀ q, x.pipe n k = some q → Shadows (x.state n).rounder1 k q

theorem shadowed_move {n : ℕ} (h : x.rst n = false) (hs : x.stalls n = false)
    (ih : x.Shadowed n) : x.Shadowed (n + 1) := by
  refine Fin.cases ?_ fun k => ?_
  · rw [pipe_move h hs, status_move h hs, advance_zero, advance_zero, entering]
    cases ho : x.offers n with
    | false => exact ⟨ho, fun q hq => by cases hq⟩
    | true =>
        refine ⟨ho, fun q hq => ?_⟩
        obtain rfl : q = Passenger.meet ((x.state n).rounder1.roundKeys 0) ⟨x.beat n, []⟩ := by
          simpa using hq.symm
        refine ⟨?_, ?_, rfl⟩
        · rw [status_move h hs]
          rfl
        · rw [blocks_move h hs]
          rfl
  · obtain ⟨hvalid, hq⟩ := ih k.castSucc
    rw [pipe_move h hs, status_move h hs, advance_succ, advance_succ]
    refine ⟨by rw [hvalid, Option.isSome_map], fun q hqk => ?_⟩
    obtain ⟨q₀, hq₀, rfl⟩ := Option.map_eq_some_iff.mp hqk
    obtain ⟨hlast, hblock, hmet⟩ := hq q₀ hq₀
    refine ⟨?_, ?_, ?_⟩
    · rw [status_move h hs]
      exact hlast
    · rw [blocks_move h hs, advance_succ, hblock, Passenger.meet, image, hmet]
      rfl
    · rw [Passenger.meet, List.length_cons, hmet]
      rfl

theorem shadowed : ∀ n, x.Shadowed (n + 1) := by
  refine Clocked.since_reset (r := x.rst) (P := x.Shadowed) x.reset_first (fun n h k => ?_)
    (fun n h ih => ?_)
  · rw [pipe_reset h, status_reset h]
    exact ⟨rfl, fun q hq => by cases hq⟩
  · cases hs : x.stalls n with
    | false => exact shadowed_move x h hs ih
    | true =>
        intro k
        obtain ⟨hvalid, hq⟩ := ih k
        rw [pipe_stall h hs, status_stall h hs]
        refine ⟨hvalid, fun q hqk => ⟨?_, ?_, (hq q hqk).met⟩⟩
        · rw [status_stall h hs]
          exact (hq q hqk).last
        · rw [blocks_stall h hs]
          exact (hq q hqk).block

end observers

theorem scripted_sourceHolds [Rom256x1] (script : List CorePorts) (key : AesMatrix)
    (h : ∀ n < script.length + 1, (scripted script (quiet key)).offers n = true →
      (scripted script (quiet key)).accepts n = false →
      ((scripted script (quiet key)).ports (n + 1)).readTvalid = true ∧
        ((scripted script (quiet key)).ports (n + 1)).readTdata =
          ((scripted script (quiet key)).ports n).readTdata ∧
        ((scripted script (quiet key)).ports (n + 1)).readTlast =
          ((scripted script (quiet key)).ports n).readTlast) :
    (scripted script (quiet key)).SourceHolds := by
  intro n _ _ hoffer hwait
  rcases Nat.lt_or_ge n (script.length + 1) with hn | hn
  · exact h n hn hoffer hwait
  · rw [offers, scripted_ports _ _ (by omega)] at hoffer
    cases hoffer

end Run

end AesAccelerator

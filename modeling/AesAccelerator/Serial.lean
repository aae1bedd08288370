import AesAccelerator.Undisturbed

/-! # Packets one after the other

A source is serial when it offers nothing between the acceptance of the last beat of a packet and
the cycle in which that beat's output is taken.  For such a source `transactionState` is exact:
it is set from the first offer of a packet until its last block has left.  So a key written at
any time is acknowledged between packets, and every packet is encrypted with the key that was in
the key register when it was first offered (`serial_delivers`). -/

namespace AesAccelerator

open ShiftPipeline

namespace Run

section serial
variable [Rom256x1] (x : Run)

/-- The last beat of a packet was accepted and its output is not yet taken. -/
def closing : ℕ → Bool
  | 0 => false
  | n + 1 => !x.rst n && ((x.accepts n && (x.ports n).readTlast) ||
      (closing n && !(x.delivers n && (x.state n).writeTlast)))

/-- Nothing is offered while a packet is closing. -/
def Serial : Prop := ∀ n, x.rst n = false → x.closing n = true → x.offers n = false

/-- `transactionState` is exact, and a packet in progress has the key of its first offer. -/
structure Exact (n : ℕ) : Prop where
  idle : (x.state n).rounder1.transactionState = .transactionIdle →
    x.Empty n ∧ x.closing n = false ∧ x.inPacket n = false
  ongoing : (x.state n).rounder1.transactionState = .ongoing →
    x.inPacket n = true ∨ x.closing n = true
  /-- The last beat of a packet is the youngest in the pipeline. -/
  last : ∀ k q, x.pipe n k = some q → q.beat.tlast = true →
    x.closing n = true ∧ ∀ j, j < k → x.pipe n j = none
  closed : x.closing n = true → x.inPacket n = false
  key : x.inPacket n = true → (x.state n).targetKey = x.packetKey n

variable {x} {n : ℕ}

theorem packetKey_of_new : ∀ {n : ℕ}, x.inPacket n = false → x.packetKey n = (x.ports n).aesKey
  | 0, _ => rfl
  | n + 1, h => by rw [packetKey, h]; rfl

theorem packetKey_kept (h : x.inPacket (n + 1) = true) : x.packetKey (n + 1) = x.packetKey n := by
  rw [packetKey, h]; rfl

theorem empty_step (h : x.rst n = false) (hE : x.Empty n) (hoffer : x.offers n = false) :
    x.Empty (n + 1) := by
  cases hs : x.stalls n with
  | true => exact fun k => by rw [pipe_stall h hs, hE k]
  | false =>
      refine Fin.cases ?_ fun k => ?_
      · rw [pipe_move h hs, advance_zero, entering, hoffer]
        rfl
      · rw [pipe_move h hs, advance_succ, hE]
        rfl

/-- Between packets, with nothing in the pipeline. -/
theorem exact_of_empty (hE : x.Empty n) (hclosing : x.closing n = false)
    (hpacket : x.inPacket n = false)
    (hT : (x.state n).rounder1.transactionState = .transactionIdle) : x.Exact n := by
  refine ⟨fun _ => ⟨hE, hclosing, hpacket⟩, fun ho => ?_, fun k q hq => ?_, fun hc => hpacket,
    fun hp => ?_⟩
  · rw [hT] at ho
    cases ho
  · rw [hE k] at hq
    cases hq
  · rw [hpacket] at hp
    cases hp

theorem exact_reset (h : x.rst n = true) : x.Exact (n + 1) :=
  exact_of_empty (fun k => by rw [pipe_reset h]) (by simp [closing, h]) (by simp [inPacket, h])
    (Core.step_reset (c := x.state n) h).2.2.2

/-! ### A cycle between packets -/

theorem exact_idle (h : x.rst n = false) (hI : (x.state n).KeySync) (hf : x.FollowsKey n)
    (hfirst : x.KeyFirst) (hT : (x.state n).rounder1.transactionState = .transactionIdle)
    (ih : x.Exact n) : x.Exact (n + 1) := by
  obtain ⟨hE, hclosing, hpacket⟩ := ih.idle hT
  have hT' := Core.step_transaction_idle h hT
  have hclosing' : x.closing (n + 1) = (x.accepts n && (x.ports n).readTlast) := by
    simp [closing, h, hclosing]
  cases hoffer : x.offers n with
  | false =>
      refine exact_of_empty (empty_step h hE hoffer) ?_ (by simp [inPacket, h, hoffer, hpacket])
        (hT'.trans (if_neg (ne_true_of_eq_false hoffer)))
      rw [hclosing', accepts_eq, hoffer]
      rfl
  | true =>
      have hpacket' : x.inPacket (n + 1) = !(x.accepts n && (x.ports n).readTlast) := by
        simp [inPacket, h, hoffer]
      have hongoing : (x.state (n + 1)).rounder1.transactionState = .ongoing :=
        hT'.trans (if_pos hoffer)
      refine ⟨fun hidle => ?_, fun _ => ?_, fun k q hq hlast => ?_, fun hc => ?_, fun hp => ?_⟩
      · rw [hongoing] at hidle
        cases hidle
      · rw [hpacket', hclosing']
        cases x.accepts n && (x.ports n).readTlast <;> simp
      · -- the pipeline was empty, so the beat is the one that has just entered
        cases hs : x.stalls n with
        | true =>
            rw [pipe_stall h hs, hE k] at hq
            cases hq
        | false =>
            have hacc : x.accepts n = true := by rw [accepts_eq, hoffer, hs]; rfl
            obtain rfl : k = 0 := by
              refine Fin.cases (fun _ => rfl) (fun k hq => ?_) k hq
              rw [pipe_move h hs, advance_succ, hE] at hq
              cases hq
            rw [pipe_move h hs, advance_zero, entering, hoffer] at hq
            obtain rfl := Option.some.inj hq
            refine ⟨?_, fun j hj => absurd hj (Fin.not_lt_zero j)⟩
            rw [hclosing', hacc]
            exact hlast
      · rw [hpacket', ← hclosing', hc]
        rfl
      · rw [packetKey_kept hp, packetKey_of_new hpacket,
          hf.targetKey_next h hI (hfirst n h hoffer) hT]

/-! ### A cycle within a transaction -/

section ongoing
variable (h : x.rst n = false) (hI : (x.state n).KeySync) (hsh : x.Shadowed n)
  (hserial : x.Serial) (hfront : x.FrontClear n)
  (hT : (x.state n).rounder1.transactionState = .ongoing) (ih : x.Exact n)
include h hT ih

omit h ih in
theorem noAck_of_ongoing : (x.state n).rounderKeyAck = false := by
  by_contra hcon
  have := (Core.rounderKeyAck_iff.mp (by simpa using hcon)).2
  rw [hT] at this
  cases this

include hsh hserial hfront in
/-- The transaction ends: the beat that is taken is the last one in the pipeline. -/
theorem exact_end (hend : ((x.state n).writeTlast && (x.state n).writeTvalid &&
    (x.ports n).writeTready) = true) : x.Exact (n + 1) := by
  have hT' := (Core.step_transaction_ongoing h hT).trans (if_pos hend)
  simp only [Bool.and_eq_true] at hend
  obtain ⟨⟨hlast, hvalid⟩, hready⟩ := hend
  obtain ⟨q, hq⟩ : ∃ q, x.pipe n (Fin.last 10) = some q :=
    Option.isSome_iff_exists.mp ((hsh (Fin.last 10)).1.symm.trans hvalid)
  have htlast : q.beat.tlast = true := ((hsh (Fin.last 10)).2 q hq).last.symm.trans hlast
  obtain ⟨hclosing, hyoungest⟩ := ih.last _ q hq htlast
  have hoffer := hserial n h hclosing
  have hnoStall : x.stalls n = false := by
    have hkey : (x.state n).keyStall = false := by
      by_contra hcon
      have hempty := empty_of_keyStall (fun hack => by rw [noAck_of_ongoing hT] at hack; cases hack)
        hfront (by simpa using hcon)
      rw [hempty] at hq
      cases hq
    rw [stalls, Core.stall_eq, hready, hkey]
    rfl
  have hE : x.Empty (n + 1) := by
    refine Fin.cases ?_ fun k => ?_
    · rw [pipe_move h hnoStall, advance_zero, entering, hoffer]
      rfl
    · rw [pipe_move h hnoStall, advance_succ, hyoungest _ (Fin.castSucc_lt_last k)]
      rfl
  refine exact_of_empty hE ?_ ?_ hT'
  · simp [closing, accepts_eq, delivers, hoffer, hvalid, hready, hlast]
  · simp [inPacket, hoffer, ih.closed hclosing]

include hI hserial in
/-- The transaction goes on. -/
theorem exact_ongoing (hend : ((x.state n).writeTlast && (x.state n).writeTvalid &&
    (x.ports n).writeTready) = false) : x.Exact (n + 1) := by
  have hT' := (Core.step_transaction_ongoing h hT).trans (if_neg (ne_true_of_eq_false hend))
  have hclosing' : x.closing (n + 1) =
      ((x.accepts n && (x.ports n).readTlast) || x.closing n) := by
    have : (x.delivers n && (x.state n).writeTlast) = false := by
      rw [delivers, Bool.and_comm, ← Bool.and_assoc]
      exact hend
    simp [closing, h, this]
  have hpacket' : x.inPacket (n + 1) = (x.inPacket n && !(x.accepts n && (x.ports n).readTlast)) := by
    have hin : x.offers n = true → x.inPacket n = true := fun ho =>
      (ih.ongoing hT).resolve_right fun hc => by rw [hserial n h hc] at ho; cases ho
    cases ho : x.offers n with
    | true => simp [inPacket, h, ho, hin ho]
    | false => simp [inPacket, h, ho, accepts_eq]
  refine ⟨fun hidle => ?_, fun _ => ?_, fun k q hq hlast => ?_, fun hc => ?_, fun hp => ?_⟩
  · rw [state_succ, hT'] at hidle
    cases hidle
  · rw [hpacket', hclosing']
    rcases ih.ongoing hT with hp | hc
    · rw [hp]
      cases x.accepts n && (x.ports n).readTlast <;> simp
    · simp [hc]
  · cases hs : x.stalls n with
    | true =>
        rw [pipe_stall h hs] at hq ⊢
        obtain ⟨hc, hyoungest⟩ := ih.last k q hq hlast
        exact ⟨by rw [hclosing', hc, Bool.or_true], hyoungest⟩
    | false =>
        revert hq
        refine Fin.cases (fun hq => ?_) (fun k hq => ?_) k
        · rw [pipe_move h hs, advance_zero, entering] at hq
          cases ho : x.offers n with
          | false => simp [ho] at hq
          | true =>
              obtain rfl : q = Passenger.meet ((x.state n).rounder1.roundKeys 0) ⟨x.beat n, []⟩ := by
                simpa [ho] using hq.symm
              have htlast : (x.ports n).readTlast = true := hlast
              refine ⟨?_, fun j hj => absurd hj (Fin.not_lt_zero j)⟩
              rw [hclosing', accepts_eq, ho, hs, htlast]
              rfl
        · rw [pipe_move h hs, advance_succ] at hq
          obtain ⟨q₀, hq₀, rfl⟩ := Option.map_eq_some_iff.mp hq
          obtain ⟨hc, hyoungest⟩ := ih.last _ q₀ hq₀ hlast
          refine ⟨by rw [hclosing', hc, Bool.or_true], Fin.cases (fun _ => ?_) fun j hj => ?_⟩
          · rw [pipe_move h hs, advance_zero, entering, hserial n h hc]
            rfl
          · rw [pipe_move h hs, advance_succ,
              hyoungest _ (Fin.castSucc_lt_castSucc_iff.mpr (Fin.succ_lt_succ_iff.mp hj))]
            rfl
  · rw [hclosing', Bool.or_eq_true] at hc
    rw [hpacket']
    rcases hc with hc | hc
    · rw [hc, Bool.not_true, Bool.and_false]
    · rw [ih.closed hc, Bool.false_and]
  · rw [hpacket', Bool.and_eq_true] at hp
    have hp' : x.inPacket (n + 1) = true := by rw [hpacket', hp.1, hp.2]; rfl
    rw [packetKey_kept hp', ← ih.key hp.1, state_succ, Core.step_targetKey hI h,
      noAck_of_ongoing hT]
    rfl

end ongoing

/-! ### Whole runs -/

/-- A beat that enters gets the key of its packet's first offer. -/
theorem packetKey_of_accept (hI : (x.state n).KeySync) (hf : x.FollowsKey n)
    (hfirst : x.KeyFirst) (hserial : x.Serial) (h : x.rst n = false) (hacc : x.accepts n = true)
    (he : x.Exact n) : x.packetKey n = (x.state n).targetKey := by
  obtain ⟨hoffer, hs⟩ : x.offers n = true ∧ x.stalls n = false := by
    simpa [accepts_eq] using hacc
  cases hp : x.inPacket n with
  | true => exact (he.key hp).symm
  | false =>
      have hT : (x.state n).rounder1.transactionState = .transactionIdle := by
        cases hT : (x.state n).rounder1.transactionState with
        | transactionIdle => rfl
        | ongoing =>
            have hc := (he.ongoing hT).resolve_left (by simp [hp])
            rw [hserial n h hc] at hoffer
            cases hoffer
      have hack : (x.state n).rounderKeyAck = false := by
        by_contra hcon
        rw [stalls, Core.stall_of_ack (by simpa using hcon)] at hs
        cases hs
      rw [packetKey_of_new hp,
        hf.targetKey_eq hI (hfirst n h hoffer) (Core.pendingRounder_of_noAck hack hT)]

theorem exact_undisturbed (hserial : x.Serial) (hkey : x.KeyDiscipline) (hfirst : x.KeyFirst) :
    ∀ n, x.Exact (n + 1) ∧ x.Undisturbed Beat.packetKey (n + 1) := by
  refine Clocked.since_reset_with (r := x.rst)
    (Q := fun n => ((x.state n).KeySync ∧ x.Shadowed n) ∧ x.Ready n ∧ x.FollowsKey n)
    (P := fun n => x.Exact n ∧ x.Undisturbed Beat.packetKey n) x.reset_first
    (fun n => ⟨⟨x.keySync n, x.shadowed n⟩, ready hfirst n, followsKey hkey n⟩)
    (fun n h => ⟨exact_reset h, undisturbed_reset h⟩) ?_
  rintro n h ⟨⟨hI, hsh⟩, hr, hf⟩ ⟨he, hu⟩
  constructor
  · cases hT : (x.state n).rounder1.transactionState with
    | transactionIdle => exact exact_idle h hI hf hfirst hT he
    | ongoing =>
        cases hend : (x.state n).writeTlast && (x.state n).writeTvalid &&
            (x.ports n).writeTready with
        | true => exact exact_end h hsh hserial hu.frontClear hT he hend
        | false => exact exact_ongoing h hI hserial hT he hend
  · exact undisturbed_step hfirst h hI hsh hr
      (fun hack => (he.idle (Core.rounderKeyAck_iff.mp hack).2).1)
      (fun hacc => packetKey_of_accept hI hf hfirst hserial h hacc he) hu

/-- **Serial packets**: what is delivered is, in order and once each, what was accepted, every
block encrypted with the key that was in the key register when its packet was first offered.
Keys may be written at any time. -/
theorem serial_delivers (x : Run) (hserial : x.Serial) (hkey : x.KeyDiscipline)
    (hfirst : x.KeyFirst) (n : ℕ) : x.delivered (n + 1) <+:
      (x.accepted (n + 1)).map fun b => (Fips197.cipher b.packetKey b.tdata, b.tlast) :=
  (exact_undisturbed hserial hkey hfirst n).2.delivered

end serial

/-- Two packets of one beat, one after the other, with a key write while the first is in the
pipeline.  The second is offered in the cycle in which the new key is acknowledged. -/
def keyWriteBetween : Run :=
  scripted
    ([{ quiet 0 with aesKeyWrite := true }, quiet 0x0f, quiet 0x0f,
      { quiet 0x0f with readTvalid := true, readTlast := true }, quiet 0x0f,
      { quiet 0x0f with aesKeyWrite := true }] ++ List.replicate 9 (quiet 0xf0) ++
      List.replicate 3 { quiet 0xf0 with readTvalid := true, readTlast := true })
    (quiet 0xf0)

theorem keyWriteBetween_serial : keyWriteBetween.Serial := by
  intro n _ hc
  rcases Nat.lt_or_ge n 19 with hn | hn
  · have : ∀ n < 19, keyWriteBetween.closing n = true → keyWriteBetween.offers n = false := by
      decide +kernel
    exact this n hn hc
  · rw [offers, keyWriteBetween, scripted_ports _ _ (lt_of_lt_of_le (by decide) hn)]
    rfl

theorem serial_delivers_keyWriteBetween :
    (keyWriteBetween.accepted 30).map (fun b => (b.packetKey, b.tlast)) =
        [(0x0f, true), (0xf0, true)] ∧
      (keyWriteBetween.delivered 30).length = 2 ∧
      keyWriteBetween.delivered 30 <+: (keyWriteBetween.accepted 30).map
        fun b => (Fips197.cipher b.packetKey b.tdata, b.tlast) :=
  ⟨by decide +kernel, by decide +kernel,
    serial_delivers keyWriteBetween keyWriteBetween_serial
      (scripted_keyDiscipline _ _ (by decide)) (scripted_keyFirst _ _ (by decide)) 29⟩

end Run

end AesAccelerator

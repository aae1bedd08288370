import AesAccelerator.Keyed

/-! # One key for each packet

`transactionState` is one bit: it falls with the last beat of a packet on the write stream, when
the next packet may long have entered on the read stream.  A pending key is then acknowledged in
the middle of that packet.

`one_key_per_packet` is the condition under which every packet is nevertheless encrypted with the
round keys of one key: in no cycle does a beat lose its key (`Core.KeepsKeys`), and a key that is
acknowledged while a packet is open is the key that the packet is being encrypted with. -/

namespace AesAccelerator

open ShiftPipeline

namespace Run

section packets
variable [Rom256x1] (x : Run)

/-- All round keys that the beats of a packet have met are from the schedule of one key, and
`aes_key` was that key in some cycle. -/
def OneKeyPerPacket (n : ℕ) : Prop := ∃ keyOf : ℕ → AesMatrix, ∀ q ∈ x.passengers n,
  x.Held n (keyOf q.beat.packet) ∧
    q.met = firstKeys (Fips197.roundKey (keyOf q.beat.packet)) q.met.length

/-- What happens to the key in cycle `n` does not touch a packet in progress. -/
structure SparesPackets (n : ℕ) : Prop where
  keeps : (x.state n).KeepsKeys (x.ports n)
  sameKey : (x.state n).rounderKeyAck = true → x.packetOpen n = true →
    (x.state n).acknowledgedKey (x.ports n) = (x.state n).targetKey

/-- `keyOf` names the key of every packet, by its number. -/
structure PacketKeys (keyOf : ℕ → AesMatrix) (n : ℕ) : Prop where
  keyed : x.KeyedBy (fun b => keyOf b.packet) n
  held : ∀ b ∈ x.accepted n, x.Held n (keyOf b.packet)
  numbers : ∀ b ∈ x.accepted n,
    b.packet < x.packets n ∨ (b.packet = x.packets n ∧ x.packetOpen n = true)
  current : x.packetOpen n = true → (x.state n).targetKey = keyOf (x.packets n)

variable {x} {n : ℕ}

theorem mem_accepted {q : Passenger} (hq : q ∈ x.passengers n) : q.beat ∈ x.accepted n := by
  rw [← x.passengers_beats]
  exact List.mem_map_of_mem hq

/-- Only the keys of the accepted beats matter. -/
theorem KeyedBy.congr {f g : Beat → AesMatrix} (hf : x.KeyedBy f n)
    (h : ∀ b ∈ x.accepted n, f b = g b) : x.KeyedBy g n := by
  have hmem : ∀ q ∈ x.passengers n, f q.beat = g q.beat := fun q hq => h _ (mem_accepted hq)
  constructor
  · intro q hq
    rw [← hmem q (List.mem_append_left _ hq)]
    exact hf.departed q hq
  · intro k q hq
    rw [← hmem q (List.mem_append_right _ (mem_occupants.mpr ⟨k, hq⟩))]
    exact hf.inside k q hq

theorem packetKeys_reset (h : x.rst n = true) (keyOf : ℕ → AesMatrix) :
    x.PacketKeys keyOf (n + 1) where
  keyed := keyedBy_reset h
  held b hb := by simp [accepted, h] at hb
  numbers b hb := by simp [accepted, h] at hb
  current ho := by simp [packetOpen, h] at ho

/-- The key of a beat that enters was in the key register. -/
theorem held_of_enter (hfirst : x.KeyFirst) (h : x.rst n = false) (hr : x.Ready n)
    (hheld : (x.state n).FollowsLoaded → x.Held n (x.state n).loadedKey)
    (hoffer : x.offers n = true) (hs : x.stalls n = false) :
    x.Held n (x.state n).targetKey := by
  cases hsync : (x.state n).rounder1.refreshState with
  | idle => exact (holds_of_enter hfirst h hr hoffer hs hsync).2
  | syncing =>
      rw [Core.targetKey, if_pos hsync]
      exact hheld (Or.inr hsync)

/-- A packet in progress keeps the key that the local round keys follow. -/
theorem targetKey_kept (h : x.rst n = false) (hI : (x.state n).KeySync)
    (hsafe : x.SparesPackets n) (hcase : x.packetOpen n = true ∨ x.accepts n = true) :
    (x.state (n + 1)).targetKey = (x.state n).targetKey := by
  rw [state_succ, Core.step_targetKey hI h]
  cases hack : (x.state n).rounderKeyAck with
  | false => rfl
  | true =>
      rcases hcase with ho | hacc
      · exact hsafe.sameKey hack ho
      · rw [accepts_eq, stalls, Core.stall_of_ack hack, Bool.not_true, Bool.and_false] at hacc
        cases hacc

theorem packetKeys_hold (hfirst : x.KeyFirst) (h : x.rst n = false)
    (hI : (x.state n).KeySync) (hsh : x.Shadowed n) (hr : x.Ready n)
    (hsafe : x.SparesPackets n) (hacc : x.accepts n = false) {keyOf : ℕ → AesMatrix}
    (ih : x.PacketKeys keyOf n) : x.PacketKeys keyOf (n + 1) := by
  have haccepted : x.accepted (n + 1) = x.accepted n := by
    rw [accepted_step h, hacc]
    exact List.append_nil _
  have hpackets : x.packets (n + 1) = x.packets n := by simp [packets, h, hacc]
  have hopen : x.packetOpen (n + 1) = x.packetOpen n := by simp [packetOpen, h, hacc]
  refine ⟨?_, fun b hb => ?_, fun b hb => ?_, fun ho => ?_⟩
  · exact keyedBy_step hfirst h hI hsh hr hsafe.keeps (fun hcon => by simp [hacc] at hcon)
      ih.keyed
  · rw [haccepted] at hb
    exact (ih.held b hb).mono (by omega)
  · rw [haccepted] at hb
    rw [hpackets, hopen]
    exact ih.numbers b hb
  · rw [hopen] at ho
    rw [hpackets, targetKey_kept h hI hsafe (Or.inl ho), ih.current ho]

/-- The packet that a beat enters for has its key already, or gets the one that the local round
keys follow. -/
theorem PacketKeys.extend {keyOf : ℕ → AesMatrix} (ih : x.PacketKeys keyOf n) :
    ∃ keyOf' : ℕ → AesMatrix, (∀ b ∈ x.accepted n, keyOf b.packet = keyOf' b.packet) ∧
      keyOf' (x.packets n) = (x.state n).targetKey := by
  cases ho : x.packetOpen n with
  | true => exact ⟨keyOf, fun _ _ => rfl, (ih.current ho).symm⟩
  | false =>
      refine ⟨Function.update keyOf (x.packets n) (x.state n).targetKey,
        fun b hb => ?_, Function.update_self ..⟩
      have hlt := (ih.numbers b hb).resolve_right (by simp [ho])
      exact (Function.update_of_ne (Nat.ne_of_lt hlt) _ _).symm

theorem packetKeys_enter (hfirst : x.KeyFirst) (h : x.rst n = false)
    (hI : (x.state n).KeySync) (hsh : x.Shadowed n) (hr : x.Ready n)
    (hheld : (x.state n).FollowsLoaded → x.Held n (x.state n).loadedKey)
    (hsafe : x.SparesPackets n) (hacc : x.accepts n = true) {keyOf : ℕ → AesMatrix}
    (ih : x.PacketKeys keyOf n) : ∃ keyOf', x.PacketKeys keyOf' (n + 1) := by
  obtain ⟨keyOf', hagree, hcurrent⟩ := ih.extend
  have haccepted : x.accepted (n + 1) = x.accepted n ++ [x.beat n] := by
    rw [accepted_step h, hacc]
    rfl
  obtain ⟨hoffer, hs⟩ : x.offers n = true ∧ x.stalls n = false := by
    simpa [accepts_eq] using hacc
  refine ⟨keyOf', ?_, fun b hb => ?_, fun b hb => ?_, fun ho => ?_⟩
  · exact keyedBy_step hfirst h hI hsh hr hsafe.keeps (fun _ => hcurrent)
      (ih.keyed.congr hagree)
  · rw [haccepted, List.mem_append, List.mem_singleton] at hb
    rcases hb with hb | rfl
    · rw [← hagree b hb]
      exact (ih.held b hb).mono (by omega)
    · show x.Held (n + 1) (keyOf' (x.packets n))
      rw [hcurrent]
      exact (held_of_enter hfirst h hr hheld hoffer hs).mono (by omega)
  · have hle : b.packet ≤ x.packets n := by
      rw [haccepted, List.mem_append, List.mem_singleton] at hb
      rcases hb with hb | rfl
      · rcases ih.numbers b hb with hlt | ⟨heq, -⟩ <;> omega
      · exact le_rfl
    cases hlast : (x.ports n).readTlast with
    | true =>
        left
        simp only [packets, h, hacc, hlast]
        exact Nat.lt_succ_of_le hle
    | false =>
        simp only [packets, packetOpen, h, hacc, hlast]
        rcases Nat.lt_or_eq_of_le hle with hlt | heq
        · exact Or.inl hlt
        · exact Or.inr ⟨heq, rfl⟩
  · have hlast : (x.ports n).readTlast = false := by
      simpa [packetOpen, h, hacc] using ho
    have hpackets : x.packets (n + 1) = x.packets n := by simp [packets, h, hlast]
    rw [hpackets, hcurrent, targetKey_kept h hI hsafe (Or.inr hacc)]

theorem packetKeys (hfirst : x.KeyFirst) :
    ∀ n, (∀ m, m < n + 1 → x.rst m = false → x.SparesPackets m) →
      ∃ keyOf, x.PacketKeys keyOf (n + 1) := by
  refine Clocked.since_reset_with (r := x.rst)
    (Q := fun n => ((x.state n).KeySync ∧ x.Shadowed n) ∧ x.Ready n ∧
      ((x.state n).FollowsLoaded → x.Held n (x.state n).loadedKey))
    (P := fun n => (∀ m, m < n → x.rst m = false → x.SparesPackets m) →
      ∃ keyOf, x.PacketKeys keyOf n)
    x.reset_first (fun n => ⟨⟨x.keySync n, x.shadowed n⟩, ready hfirst n, held_loadedKey n⟩)
    (fun n h _ => ⟨fun _ => 0, packetKeys_reset h _⟩) (fun n h hQ ih hsafe => ?_)
  obtain ⟨⟨hI, hsh⟩, hr, hheld⟩ := hQ
  obtain ⟨keyOf, hkeys⟩ := ih fun m hm => hsafe m (by omega)
  have hsafe := hsafe n (by omega) h
  cases hacc : x.accepts n with
  | false => exact ⟨keyOf, packetKeys_hold hfirst h hI hsh hr hsafe hacc hkeys⟩
  | true => exact packetKeys_enter hfirst h hI hsh hr hheld hsafe hacc hkeys

/-- A passenger has met the round keys of its key, as many as it has met. -/
theorem KeyedBy.met {keyOf : Beat → AesMatrix} (hk : x.KeyedBy keyOf n) {q : Passenger}
    (hq : q ∈ x.passengers n) :
    q.met.length ≤ 11 ∧ q.met = firstKeys (KeyExpansion.schedule (keyOf q.beat)) q.met.length := by
  rcases List.mem_append.mp hq with hq | hq
  · rw [hk.departed q hq, length_firstKeys]
    exact ⟨le_rfl, rfl⟩
  · obtain ⟨k, hqk⟩ := mem_occupants.mp hq
    rw [(hk.inside k q hqk).1, length_firstKeys]
    exact ⟨by omega, rfl⟩

/-- **One key for each packet**: in a run whose cycles all spare the packets in progress, every
packet is encrypted with the round keys of one key, and that key was in the key register. -/
theorem one_key_per_packet (x : Run) (hfirst : x.KeyFirst) (n : ℕ)
    (hsafe : ∀ m, m < n + 1 → x.rst m = false → x.SparesPackets m) :
    x.OneKeyPerPacket (n + 1) := by
  obtain ⟨keyOf, hkeys⟩ := packetKeys hfirst n hsafe
  refine ⟨keyOf, fun q hq => ⟨hkeys.held _ (mem_accepted hq), ?_⟩⟩
  obtain ⟨hle, hmet⟩ := hkeys.keyed.met hq
  have hschedule : firstKeys (KeyExpansion.schedule (keyOf q.beat.packet)) q.met.length =
      firstKeys (Fips197.roundKey (keyOf q.beat.packet)) q.met.length := by
    unfold firstKeys
    congr 1
    exact List.map_congr_left fun j hj =>
      schedule_eq_roundKey _ j (by have := List.mem_range.mp hj; omega)
  rw [← hschedule]
  exact hmet

end packets

/-- A key and then a packet of two beats, the first of them right behind the synchronization. -/
def onePacket : Run :=
  scripted
    [{ quiet 0 with aesKeyWrite := true }, quiet 0x0f, quiet 0x0f,
      { quiet 0x0f with readTvalid := true },
      { quiet 0x0f with readTvalid := true, readTlast := true }]
    (quiet 0x0f)

theorem one_key_per_packet_onePacket : onePacket.OneKeyPerPacket 20 := by
  refine one_key_per_packet onePacket (scripted_keyFirst _ _ (by decide)) 19
    fun m hm _ => ?_
  -- the only acknowledge comes before the packet, and the only stall is the one that follows it
  have hcalm : ∀ m < 20,
      ((onePacket.state m).rounderKeyAck = true → onePacket.packetOpen m = false ∧
        (onePacket.state m).rounder1.refreshState = .idle) ∧
      ((onePacket.state m).rounder1.refreshState = .syncing → onePacket.stalls m = true →
        (onePacket.state m).rounder1.keySyncingCounter = 0) := by decide +kernel
  obtain ⟨hack, hstall⟩ := hcalm m hm
  refine ⟨⟨fun hs hst k hk _ => ?_, fun hs ha => ?_⟩, fun ha ho => ?_⟩
  · rw [hstall hs hst] at hk
    omega
  · rw [(hack ha).2] at hs
    cases hs
  · rw [(hack ha).1] at ho
    cases ho

/-- A packet of one beat, the first beat of a second packet right behind it, a key write, and the
second beat of the second packet some cycles later. -/
def keyWriteMidPacket : Run :=
  scripted
    ([{ quiet 0 with aesKeyWrite := true }, quiet 0x0f, quiet 0x0f,
      { quiet 0x0f with readTvalid := true, readTlast := true },
      { quiet 0x0f with readTvalid := true },
      { quiet 0x0f with aesKeyWrite := true }] ++ List.replicate 11 (quiet 0xf0) ++
      [{ quiet 0xf0 with readTvalid := true, readTlast := true }])
    (quiet 0xf0)

/-- The oldest round key a passenger met is the key whose schedule it met. -/
theorem key_of_met {key first : AesMatrix} {met : List AesMatrix}
    (hmet : met = firstKeys (Fips197.roundKey key) met.length) (hfirst : met.getLast? = some first) :
    first = Fips197.roundKey key 0 := by
  cases hl : met.length with
  | zero =>
      rw [List.length_eq_zero_iff.mp hl] at hfirst
      cases hfirst
  | succ n =>
      rw [hmet, hl, firstKeys, List.range_succ_eq_map] at hfirst
      simpa using hfirst.symm

/-- The two beats of the second packet meet round keys of different keys. -/
theorem keyWriteMidPacket_two_keys :
    ¬ ∀ x : Run, x.SourceHolds → x.KeyDiscipline → x.KeyFirst →
      ∀ n, x.OneKeyPerPacket (n + 1) := by
  intro hall
  obtain ⟨keyOf, hkeys⟩ := hall keyWriteMidPacket (scripted_sourceHolds _ _ (by decide +kernel))
    (scripted_keyDiscipline _ _ (by decide)) (scripted_keyFirst _ _ (by decide)) 18
  have hmet : (keyWriteMidPacket.passengers 19).map
      (fun q => (q.beat.packet, q.met.getLast?)) =
        [(0, some 0x0f), (1, some 0x0f), (1, some 0xf0)] := by decide +kernel
  have hfirst : ∀ key, (1, some key) ∈ (keyWriteMidPacket.passengers 19).map
      (fun q => (q.beat.packet, q.met.getLast?)) → key = Fips197.roundKey (keyOf 1) 0 := by
    intro key hkey
    obtain ⟨q, hq, heq⟩ := List.mem_map.mp hkey
    obtain ⟨hpacket, hlast⟩ := Prod.mk.inj heq
    have := (hkeys q hq).2
    rw [hpacket] at this
    exact key_of_met this hlast
  rw [hmet] at hfirst
  have h1 := hfirst 0x0f (by decide)
  have h2 := hfirst 0xf0 (by decide)
  exact absurd (h1.trans h2.symm) (by decide)

end Run

end AesAccelerator

import AesAccelerator.MicroAes

/-! # The software key expansion

`KeyExpansion` writes the round keys byte by byte: at the first byte of a round key it copies the
whole round key before and then changes the first word, and the other words are changed one
iteration at a time.  The round constant is a byte that is shifted out after eight uses and then
replaced (`rconAfter`).  `Expanded` is the state between two iterations, and
`read_keyExpansion` the result: the array holds the key schedule, whatever it held before. -/

namespace AesAccelerator.MicroAes

open Fips197 (byteAt)

theorem sBoxValue_eq (b : BitVec 8) : sBoxValue b = Fips197.sBox b := sBoxTable_eq b

/-! ### The key schedule in bytes -/

/-- Byte `j` of the expanded key. -/
def keyByte (key : BitVec 128) (j : ℕ) : BitVec 8 :=
  (Fips197.keyWord key (j / 4)).extractLsb' (8 * (j % 4)) 8

theorem keyByte_eq_lane (key : BitVec 128) (i : ℕ) (r : Fin 4) :
    keyByte key (4 * i + r) = Packed.lane 8 (Fips197.keyWord key i) r := by
  rw [keyByte, show (4 * i + r) / 4 = i by omega, show (4 * i + (r : ℕ)) % 4 = r by omega]
  rfl

theorem byteAt_roundKey (key : BitVec 128) (n : ℕ) (r c : Fin 4) :
    byteAt (Fips197.roundKey key n) r c = keyByte key (16 * n + (r + 4 * c)) := by
  rw [show 16 * n + ((r : ℕ) + 4 * c) = 4 * (4 * n + c) + r by omega, keyByte_eq_lane,
    ← roundKey_col]
  rfl

theorem keyByte_lt (key : ByteBlock) {j : ℕ} (h : j < 16) : keyByte key.state j = key.read j := by
  have hbyte := ByteBlock.byteAt_state key ⟨j % 4, by omega⟩ ⟨j / 4, by omega⟩
  rw [show j % 4 + 4 * (j / 4) = j by omega] at hbyte
  rw [keyByte, Fips197.keyWord_lt _ (by omega)]
  exact hbyte

/-- The first word of a round key. -/
theorem keyByte_round (key : BitVec 128) (n : ℕ) {t : ℕ} (ht : t < 4) :
    keyByte key (16 * (n + 1) + t) = keyByte key (16 * (n + 1) + t - 16) ^^^
      (Fips197.sBox (keyByte key (16 * (n + 1) - 4 + (t + 1) % 4)) ^^^
        if t = 0 then Fips197.xPow n else 0#8) := by
  obtain ⟨t, rfl⟩ : ∃ t' : Fin 4, (t' : ℕ) = t := ⟨⟨t, ht⟩, rfl⟩
  have hnext : ((t : ℕ) + 1) % 4 = (t + 1 : Fin 4) := by omega
  rw [hnext, show 16 * (n + 1) + (t : ℕ) - 16 = 4 * (4 * n) + t by omega,
    show 16 * (n + 1) + (t : ℕ) = 4 * (4 * (n + 1)) + t by omega,
    show 16 * (n + 1) - 4 + ((t + 1 : Fin 4) : ℕ) = 4 * (4 * n + 3) + (t + 1 : Fin 4) by omega,
    keyByte_eq_lane, keyByte_eq_lane, keyByte_eq_lane, Fips197.keyWord_round, Packed.lane_xor,
    Packed.lane_xor, Fips197.subWord, Packed.lane_pack, Fips197.rotWord, Packed.lane_pack,
    Fips197.rcon, Packed.lane_pack]
  fin_cases t <;> rfl

/-- The other words of a round key. -/
theorem keyByte_round_succ (key : BitVec 128) (n : ℕ) {t : ℕ} (h : 4 ≤ t) (ht : t < 16) :
    keyByte key (16 * (n + 1) + t) =
      keyByte key (16 * n + t) ^^^ keyByte key (16 * (n + 1) + t - 4) := by
  have hword := Fips197.keyWord_round_succ key n (show t / 4 - 1 < 3 by omega)
  unfold keyByte
  rw [show (16 * (n + 1) + t) / 4 = 4 * (n + 1) + (t / 4 - 1 + 1) by omega,
    show (16 * n + t) / 4 = 4 * n + (t / 4 - 1 + 1) by omega,
    show (16 * (n + 1) + t - 4) / 4 = 4 * (n + 1) + (t / 4 - 1) by omega, hword,
    show (16 * (n + 1) + t) % 4 = t % 4 by omega, show (16 * n + t) % 4 = t % 4 by omega,
    show (16 * (n + 1) + t - 4) % 4 = t % 4 by omega]
  exact BitVec.extractLsb'_xor

/-! ### The key expansion -/

/-- The round constant after `n` uses: a byte that is zero is replaced before it is used. -/
def rconAfter (n : ℕ) : BitVec 8 := if n = 8 then 0 else Fips197.xPow n

theorem rconAfter_use : ∀ n : Fin 10, (if rconAfter n = 0 then 0x1b else rconAfter n) =
    Fips197.xPow n ∧ Fips197.xPow n <<< 1 = rconAfter (n + 1) := by decide +kernel

/-- The state of the loop before the iteration for byte `i`: the bytes before it are those of the
key schedule, and the rest of the round key under construction is a copy of the one before. -/
structure Expanded (key : BitVec 128) (i : ℕ) (s : RoundKeys × BitVec 8) : Prop where
  done : ∀ j < i, s.1.read j = keyByte key j
  copied : ∀ j, i ≤ j → j < 16 * ((i + 15) / 16) → s.1.read j = keyByte key (j - 16)
  rcon : s.2 = rconAfter ((i + 15) / 16 - 1)

section step
variable {key : BitVec 128} {s : RoundKeys × BitVec 8} {n : ℕ}

/-- The iteration that begins a round key. -/
theorem Expanded.round (h : Expanded key (16 * (n + 1)) s) (hn : n < 10) :
    Expanded key (16 * (n + 1) + 4) (expansionStep s (16 * (n + 1))) := by
  obtain ⟨roundKey, rcon⟩ := s
  obtain ⟨huse, hshift⟩ := rconAfter_use ⟨n, hn⟩
  have hrcon : (if rcon = 0 then 0x1b else rcon) = Fips197.xPow n := by
    have : rcon = rconAfter n := by
      rw [show n = (16 * (n + 1) + 15) / 16 - 1 by omega]
      exact h.rcon
    rw [this]
    exact huse
  have hcopy : ∀ j, (roundKey.copyFrom (16 * (n + 1)) roundKey (16 * (n + 1) - 16) 16).read j =
      if 16 * (n + 1) ≤ j ∧ j < 16 * (n + 1) + 16 then keyByte key (j - 16)
      else roundKey.read j := by
    intro j
    rw [CArray.read_copyFrom _ _ _ (by omega)]
    split_ifs with hj
    · rw [show 16 * (n + 1) - 16 + (j - 16 * (n + 1)) = j - 16 by omega]
      exact h.done _ (by omega)
    · rfl
  unfold expansionStep
  simp only [if_pos (show 16 * (n + 1) % 16 = 0 by omega), hrcon]
  have hold : ∀ j < 16 * (n + 1), roundKey.read j = keyByte key j := h.done
  refine ⟨fun j hj => ?_, fun j hj hj' => ?_, ?_⟩
  · rcases Nat.lt_or_ge j (16 * (n + 1)) with hlt | hge
    · simp (disch := omega) only [CArray.read_write, if_neg, hcopy, hold]
    · obtain ⟨t, rfl⟩ := Nat.exists_eq_add_of_le hge
      have ht : t < 4 := by omega
      rw [keyByte_round key n ht]
      interval_cases t
      · simp (disch := omega) only [CArray.read_write, if_neg, if_pos, hcopy, hold, sBoxValue_eq]
        rw [show 16 * (n + 1) - 4 + (0 + 1) % 4 = 16 * (n + 1) - 3 by omega]
        rfl
      · simp (disch := omega) only [CArray.read_write, if_neg, if_pos, hcopy, hold, sBoxValue_eq]
        rw [if_pos trivial, BitVec.xor_zero, show 16 * (n + 1) - 4 + (1 + 1) % 4 = 16 * (n + 1) - 2 by omega]
      · simp (disch := omega) only [CArray.read_write, if_neg, if_pos, hcopy, hold, sBoxValue_eq]
        rw [if_pos trivial, BitVec.xor_zero, show 16 * (n + 1) - 4 + (2 + 1) % 4 = 16 * (n + 1) - 1 by omega]
      · simp (disch := omega) only [CArray.read_write, if_neg, if_pos, hcopy, hold, sBoxValue_eq]
        rw [if_pos trivial, BitVec.xor_zero, show 16 * (n + 1) - 4 + (3 + 1) % 4 = 16 * (n + 1) - 4 by omega]
  · simp (disch := omega) only [CArray.read_write, if_neg, if_pos, hcopy]
  · show Fips197.xPow n <<< 1 = _
    rw [show (16 * (n + 1) + 4 + 15) / 16 - 1 = n + 1 by omega]
    exact hshift

/-- An iteration within a round key. -/
theorem Expanded.word {c : ℕ} (h : Expanded key (16 * (n + 1) + 4 * (c + 1)) s) (hn : n < 10)
    (hc : c < 3) : Expanded key (16 * (n + 1) + 4 * (c + 1) + 4)
      (expansionStep s (16 * (n + 1) + 4 * (c + 1))) := by
  obtain ⟨roundKey, rcon⟩ := s
  unfold expansionStep
  simp only [if_neg (show ¬ (16 * (n + 1) + 4 * (c + 1)) % 16 = 0 by omega)]
  have hread : ∀ j, (roundKey.fill (16 * (n + 1) + 4 * (c + 1)) 4 fun t =>
      roundKey.read (16 * (n + 1) + 4 * (c + 1) + t) ^^^
        roundKey.read (16 * (n + 1) + 4 * (c + 1) - 4 + t)).read j = _ :=
    fun j => CArray.read_fill _ _ _ (by omega)
  refine ⟨fun j hj => ?_, fun j hj hj' => ?_, ?_⟩
  · show CArray.read _ j = _
    rw [hread]
    split_ifs with hij
    · obtain ⟨t, rfl⟩ := Nat.exists_eq_add_of_le hij.1
      rw [Nat.add_sub_cancel_left, h.copied _ (by omega) (by omega), h.done _ (by omega),
        show 16 * (n + 1) + 4 * (c + 1) + t = 16 * (n + 1) + (4 * (c + 1) + t) by omega,
        keyByte_round_succ key n (by omega) (by omega)]
      congr 2 <;> omega
    · exact h.done j (by omega)
  · show CArray.read _ j = _
    rw [hread, if_neg (by omega)]
    exact h.copied j (by omega) (by omega)
  · show rcon = _
    rw [show (16 * (n + 1) + 4 * (c + 1) + 4 + 15) / 16 = (16 * (n + 1) + 4 * (c + 1) + 15) / 16 by
      omega]
    exact h.rcon

/-- One iteration, wherever the byte is in its round key. -/
theorem Expanded.step {k : ℕ} (h : Expanded key (16 + 4 * k) s) (hk : k < 40) :
    Expanded key (16 + 4 * (k + 1)) (expansionStep s (16 + 4 * k)) := by
  rcases Nat.eq_zero_or_pos (k % 4) with h0 | hpos
  · have hi : 16 + 4 * k = 16 * (k / 4 + 1) := by omega
    rw [Nat.mul_succ, ← Nat.add_assoc, hi]
    rw [hi] at h
    exact h.round (by omega)
  · have hi : 16 + 4 * k = 16 * (k / 4 + 1) + 4 * (k % 4 - 1 + 1) := by omega
    rw [Nat.mul_succ, ← Nat.add_assoc, hi]
    rw [hi] at h
    exact h.word (by omega) (by omega)

theorem Expanded.loop (h : Expanded key 16 s) : ∀ k ≤ 40,
    Expanded key (16 + 4 * k) ((List.range' 16 k 4).foldl expansionStep s)
  | 0, _ => h
  | k + 1, hk => by
      rw [List.range'_concat, List.foldl_append]
      exact (loop h k (by omega)).step (by omega)

end step

/-- The round keys are the key schedule, whatever `RoundKey` held before. -/
theorem read_keyExpansion (roundKey : RoundKeys) (key : ByteBlock) {j : ℕ} (hj : j < 176) :
    (keyExpansion roundKey key).read j = keyByte key.state j := by
  have hfirst : Expanded key.state 16 (roundKey.copyFrom 0 key 0 16, 1) := by
    refine ⟨fun j hj => ?_, fun j hj hj' => ?_, rfl⟩
    · show CArray.read _ j = _
      rw [CArray.read_copyFrom _ _ _ (by omega), if_pos (by omega), Nat.zero_add, Nat.sub_zero,
        keyByte_lt key hj]
    · omega
  exact (hfirst.loop 40 le_rfl).done j hj

end AesAccelerator.MicroAes

import AesAccelerator.Tables

/-! # The round unit

`hdl/combinatorial_matrix_multiplier.sv` and `hdl/aes_round_pe.sv`.  The round unit is written
twice in the source, under `` `ifdef USE_ROM_INTRINSICS ``: with the substitution table read
directly and with `lookup_table_256x8` instances.  `tables.svh` defines the macro, so the
second variant is the one that is built. -/

namespace AesAccelerator

/-! ### Column mixing -/

def scaleBy2 (toScale : BitVec 8) : BitVec 8 :=
  if toScale.getLsbD 7 then (toScale.extractLsb' 0 7 ++ 0#1) ^^^ 0x1b#8
  else toScale.extractLsb' 0 7 ++ 0#1

def scaleBy3 (toScale : BitVec 8) : BitVec 8 := scaleBy2 toScale ^^^ toScale

def row1Mac (toMac : BitVec 32) : BitVec 8 :=
  scaleBy2 (toMac.extractLsb' 0 8) ^^^ scaleBy3 (toMac.extractLsb' 8 8) ^^^
    toMac.extractLsb' 16 8 ^^^ toMac.extractLsb' 24 8

def row2Mac (toMac : BitVec 32) : BitVec 8 :=
  toMac.extractLsb' 0 8 ^^^ scaleBy2 (toMac.extractLsb' 8 8) ^^^
    scaleBy3 (toMac.extractLsb' 16 8) ^^^ toMac.extractLsb' 24 8

def row3Mac (toMac : BitVec 32) : BitVec 8 :=
  toMac.extractLsb' 0 8 ^^^ toMac.extractLsb' 8 8 ^^^
    scaleBy2 (toMac.extractLsb' 16 8) ^^^ scaleBy3 (toMac.extractLsb' 24 8)

def row4Mac (toMac : BitVec 32) : BitVec 8 :=
  scaleBy3 (toMac.extractLsb' 0 8) ^^^ toMac.extractLsb' 8 8 ^^^
    toMac.extractLsb' 16 8 ^^^ scaleBy2 (toMac.extractLsb' 24 8)

/-- `combinatorial_matrix_multiplier`. -/
def combinatorialMatrixMultiplier (matrixIn : AesMatrix) : AesMatrix :=
  AesMatrix.of fun c r => match r with
    | 0 => row1Mac (matrixIn.col c)
    | 1 => row2Mac (matrixIn.col c)
    | 2 => row3Mac (matrixIn.col c)
    | 3 => row4Mac (matrixIn.col c)

/-! ### Substitution and row shift -/

section
variable (sBox : Fin 256 → BitVec 8) (stateIn : AesMatrix)

/-- `shifted_and_substituted` without the ROM intrinsics. -/
def shiftedAndSubstituted : AesMatrix := AesMatrix.of fun c r => match c, r with
  -- first row
  | 0, 0 => sBox (stateIn.at 0 0).toFin
  | 1, 0 => sBox (stateIn.at 1 0).toFin
  | 2, 0 => sBox (stateIn.at 2 0).toFin
  | 3, 0 => sBox (stateIn.at 3 0).toFin
  -- second row
  | 0, 1 => sBox (stateIn.at 1 1).toFin
  | 1, 1 => sBox (stateIn.at 2 1).toFin
  | 2, 1 => sBox (stateIn.at 3 1).toFin
  | 3, 1 => sBox (stateIn.at 0 1).toFin
  -- third row
  | 0, 2 => sBox (stateIn.at 2 2).toFin
  | 1, 2 => sBox (stateIn.at 3 2).toFin
  | 2, 2 => sBox (stateIn.at 0 2).toFin
  | 3, 2 => sBox (stateIn.at 1 2).toFin
  -- fourth row
  | 0, 3 => sBox (stateIn.at 3 3).toFin
  | 1, 3 => sBox (stateIn.at 0 3).toFin
  | 2, 3 => sBox (stateIn.at 1 3).toFin
  | 3, 3 => sBox (stateIn.at 2 3).toFin

/-- `shifted_and_substituted` with the ROM intrinsics: one memory for every byte. -/
def shiftedAndSubstitutedRom [Rom256x1] : AesMatrix := AesMatrix.of fun c r => match c, r with
  -- first row
  | 0, 0 => lookupTable256x8 sBox (stateIn.at 0 0)
  | 1, 0 => lookupTable256x8 sBox (stateIn.at 1 0)
  | 2, 0 => lookupTable256x8 sBox (stateIn.at 2 0)
  | 3, 0 => lookupTable256x8 sBox (stateIn.at 3 0)
  -- second row
  | 0, 1 => lookupTable256x8 sBox (stateIn.at 1 1)
  | 1, 1 => lookupTable256x8 sBox (stateIn.at 2 1)
  | 2, 1 => lookupTable256x8 sBox (stateIn.at 3 1)
  | 3, 1 => lookupTable256x8 sBox (stateIn.at 0 1)
  -- third row
  | 0, 2 => lookupTable256x8 sBox (stateIn.at 2 2)
  | 1, 2 => lookupTable256x8 sBox (stateIn.at 3 2)
  | 2, 2 => lookupTable256x8 sBox (stateIn.at 0 2)
  | 3, 2 => lookupTable256x8 sBox (stateIn.at 1 2)
  -- fourth row
  | 0, 3 => lookupTable256x8 sBox (stateIn.at 3 3)
  | 1, 3 => lookupTable256x8 sBox (stateIn.at 0 3)
  | 2, 3 => lookupTable256x8 sBox (stateIn.at 1 3)
  | 3, 3 => lookupTable256x8 sBox (stateIn.at 2 3)

end

/-! ### The round unit -/

/-- `aes_round_pe`, compiled with or without `USE_ROM_INTRINSICS`, with `sBox` for
`S_BOX_TABLE`. -/
def aesRoundPeWith [Rom256x1] (useRomIntrinsics : Bool) (sBox : Fin 256 → BitVec 8)
    (mixColumns : Bool) (stateIn roundKey : AesMatrix) : AesMatrix :=
  let shifted :=
    if useRomIntrinsics then shiftedAndSubstitutedRom sBox stateIn
    else shiftedAndSubstituted sBox stateIn
  if mixColumns then combinatorialMatrixMultiplier shifted ^^^ roundKey else shifted ^^^ roundKey

/-- `` `define USE_ROM_INTRINSICS `` in `tables.svh`. -/
def useRomIntrinsics : Bool := true

/-- `aes_round_pe` as built. -/
def aesRoundPe [Rom256x1] (mixColumns : Bool) (stateIn roundKey : AesMatrix) : AesMatrix :=
  aesRoundPeWith useRomIntrinsics sBoxTable mixColumns stateIn roundKey

/-! ### The two builds -/

/-- The two variants of the wiring agree. -/
theorem shiftedAndSubstitutedRom_eq [Rom256x1] (sBox : Fin 256 → BitVec 8) (m : AesMatrix) :
    shiftedAndSubstitutedRom sBox m = shiftedAndSubstituted sBox m := by
  simp only [shiftedAndSubstitutedRom, shiftedAndSubstituted, lookupTable256x8_eq]

/-- **The build with the ROM intrinsics is the plain build**, for every table: the memories output
the addressed entries, and the round unit is the same function of state and round key. -/
theorem romIntrinsics_eq_plain [Rom256x1] (table : Fin 256 → BitVec 8) :
    (∀ addr : BitVec 8, lookupTable256x8 table addr = table addr.toFin) ∧
      ∀ (mixColumns : Bool) (stateIn roundKey : AesMatrix),
        aesRoundPeWith true table mixColumns stateIn roundKey =
          aesRoundPeWith false table mixColumns stateIn roundKey := by
  constructor
  · exact lookupTable256x8_eq table
  · intro mixColumns stateIn roundKey
    unfold aesRoundPeWith
    rw [if_pos rfl, if_neg Bool.false_ne_true, shiftedAndSubstitutedRom_eq]

/-! ### The stages in sequence -/

variable [Rom256x1]

/-- Stage `n` of the datapath: the initial exclusive or, nine round units with column mixing
and one without. -/
def stage : ℕ → (roundKey stateIn : AesMatrix) → AesMatrix
  | 0, roundKey, stateIn => stateIn ^^^ roundKey
  | n + 1, roundKey, stateIn => aesRoundPe (decide (n < 9)) stateIn roundKey

/-- A stage shows the round key it used. -/
theorem stage_injective {a b stateIn : AesMatrix} : ∀ n, stage n a stateIn = stage n b stateIn →
    a = b
  | 0, h => (BitVec.xor_right_inj _).mp h
  | n + 1, h => by
      simp only [stage, aesRoundPe, aesRoundPeWith] at h
      cases hmix : decide (n < 9) <;> rw [hmix] at h <;> exact (BitVec.xor_right_inj _).mp h

/-- The image of `block` in the stages that used the given round keys, the last one first. -/
def image (block : AesMatrix) : List AesMatrix → AesMatrix
  | [] => block
  | roundKey :: met => stage met.length roundKey (image block met)

/-- The whole datapath as `generate_rounds` lays it out, with the round keys `keys 0, …, keys 10`. -/
def datapath (keys : ℕ → AesMatrix) (block : AesMatrix) : AesMatrix :=
  let afterNine := (List.range 9).foldl
    (fun state i => aesRoundPe true state (keys (i + 1))) (block ^^^ keys 0)
  aesRoundPe false afterNine (keys 10)

/-- The first `n` round keys met, the last one first. -/
def firstKeys (keys : ℕ → AesMatrix) (n : ℕ) : List AesMatrix := ((List.range n).map keys).reverse

omit [Rom256x1] in
theorem firstKeys_succ (keys : ℕ → AesMatrix) (n : ℕ) :
    firstKeys keys (n + 1) = keys n :: firstKeys keys n := by
  simp [firstKeys, List.range_succ]

omit [Rom256x1] in
@[simp] theorem length_firstKeys (keys : ℕ → AesMatrix) (n : ℕ) :
    (firstKeys keys n).length = n := by
  simp [firstKeys]

theorem image_firstKeys_succ (keys : ℕ → AesMatrix) (block : AesMatrix) (n : ℕ) :
    image block (firstKeys keys (n + 1)) = stage n (keys n) (image block (firstKeys keys n)) := by
  rw [firstKeys_succ, image, length_firstKeys]

/-- All eleven stages together are the datapath. -/
theorem image_firstKeys (keys : ℕ → AesMatrix) (block : AesMatrix) :
    image block (firstKeys keys 11) = datapath keys block := by
  have rounds : ∀ n, n ≤ 9 → image block (firstKeys keys (n + 1)) =
      (List.range n).foldl (fun state i => aesRoundPe true state (keys (i + 1)))
        (block ^^^ keys 0) := by
    intro n
    induction n with
    | zero => intro _; rfl
    | succ n ih =>
        intro h
        rw [image_firstKeys_succ, ih (by omega), List.range_succ, List.foldl_append, stage,
          decide_eq_true (by omega)]
        rfl
  rw [image_firstKeys_succ, rounds 9 le_rfl]
  rfl

end AesAccelerator

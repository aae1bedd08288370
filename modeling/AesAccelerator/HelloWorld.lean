import AesAccelerator.Ecb
import AesAccelerator.SerialCalls

/-! # The test program

`main` of `sw/src/helloworld.c`: after `aes_hw_init` and the encryption of a short text, a file is
read, encrypted by the software to `cipher` and by the hardware in place, and the two results are
compared byte by byte.  What the file system delivers is arbitrary.

The comparison never fails (`main_matches`), and what the hardware has encrypted the software
decrypts (`ecbDecrypt_hardware`), whatever the order of the steps of the processor, the engine and
the core. -/

namespace AesAccelerator

open MicroAes (Machine RoundKeys ecbEncrypt ecbDecrypt encryptedBlock messageBlock)

/-! ### What a finished encryption leaves in memory -/

section encrypted
variable (key : AesBlock) (memory : ℕ → BitVec 8) (inout n : ℕ)

/-- The addresses of `n` blocks that follow each other. -/
def blockAddrs : List ℕ := (List.range n).map (inout + 16 * ·)

theorem blockAddrs_apart : (blockAddrs inout n).Pairwise Apart := by
  refine List.pairwise_map.mpr (List.pairwise_lt_range.imp fun h => ?_)
  unfold Apart
  omega

/-- A buffer that has been encrypted block by block. -/
theorem readBlock_sequential {i : ℕ} (h : i < n) :
    readBlock (sequential .configured (tasksOf key (blockAddrs inout n)) memory) (inout + 16 * i) =
      encryptedBlock key (readBlock memory (inout + 16 * i)) := by
  rw [← encryptedAt_eq_sequential _ _ _ (blockAddrs_apart inout n)]
  exact readBlock_encryptedAt .configured key memory (blockAddrs_apart inout n)
    (List.mem_map.mpr ⟨i, List.mem_range.mpr h, rfl⟩)

theorem sequential_of_outside {a : ℕ} (h : a < inout ∨ inout + 16 * n ≤ a) :
    sequential .configured (tasksOf key (blockAddrs inout n)) memory a = memory a := by
  rw [← encryptedAt_eq_sequential _ _ _ (blockAddrs_apart inout n)]
  apply encryptedAt_of_outside
  intro addr hmem
  obtain ⟨i, hi, rfl⟩ := List.mem_map.mp hmem
  have := List.mem_range.mp hi
  omega

end encrypted

/-- Byte `i` is in block `i / 16`. -/
theorem apply_of_readBlock {m m' : ℕ → BitVec 8} {a a' i : ℕ}
    (h : readBlock m (a + 16 * (i / 16)) = readBlock m' (a' + 16 * (i / 16))) :
    m (a + i) = m' (a' + i) := by
  have hbyte := congrFun h ⟨i % 16, Nat.mod_lt _ (by omega)⟩
  simp only [readBlock, Nat.add_assoc, Nat.div_add_mod] at hbyte
  exact hbyte

/-! ### The software decrypts what the hardware has encrypted -/

/-- Without the clock, which has no effect on what is done. -/
def AesHw.timeTestEncrypt (w : ℕ) (key : AesBlock) (inout : ℕ) (nBlocks : ℤ) : List Action :=
  .dCacheFlushRange inout (cInt (nBlocks * 16)) :: encryptLarge w key inout nBlocks ++
    [.dCacheInvalidateRange inout (cInt (nBlocks * 16))]

theorem exists_job_timeTest {p : Platform} (call : ℕ) (key : AesBlock) (inout : ℕ) {n : ℕ}
    (hsize : 16 * n ≤ 0x20000000) : ∃ j : Job p,
      j.program = instrs call (AesHw.timeTestEncrypt p.lengthWidth key inout n) ++ [⟨call, none⟩] ∧
        j.tasks = tasksOf key (blockAddrs inout n) := by
  have hbytes : AesHw.cInt (n * 16) = 16 * n := by rw [AesHw.cInt_eq (by omega) (by omega), mul_comm]
  have hactions : AesHw.timeTestEncrypt p.lengthWidth key inout n =
      [.dCacheFlushRange inout (16 * n)] ++ .writeKey key ::
        (AesHw.encryptLargeLoop p.lengthWidth inout (16 * n) ++
          [.whileBusy .deviceToDma, .dCacheInvalidateRange inout (16 * n)]) := by
    rw [AesHw.timeTestEncrypt, AesHw.encryptLarge, hbytes]
    simp
  refine exists_job call key hactions ?_ ?_ ?_ ?_ (blockAddrs_apart inout n)
  · intro i hi
    obtain rfl := List.mem_singleton.mp hi
    rfl
  · intro a ha key'
    rcases List.mem_append.mp ha with ha | ha
    · rcases mem_encryptLargeLoop _ _ ha with ⟨_, rfl⟩ | ⟨_, _, _, rfl⟩ <;> simp
    · simp only [List.mem_cons, List.not_mem_nil, or_false] at ha
      rcases ha with rfl | rfl <;> simp
  · obtain ⟨k, howed, hloop⟩ :=
      leads_encryptLargeLoop p (fun _ => True) call n inout .quiet rfl
    have hwait : k.next ⟨call, some (.whileBusy .deviceToDma)⟩ = .quiet := if_pos howed
    rw [hactions, List.singleton_append, instrs_cons, instrs_cons, instrs_append, List.cons_append,
      List.cons_append, List.append_assoc]
    refine .cons trivial (.cons trivial (hloop.append (.cons trivial ?_)))
    rw [hwait]
    exact .cons trivial (.cons (fun _ => rfl) (leads_nil _))
  · rw [hactions, List.singleton_append, instrs_cons, instrs_cons, readAddrs_cons_none rfl,
      readAddrs_cons_none rfl, instrs_append, readAddrs_append, readAddrs_encryptLargeLoop]
    exact List.append_nil _

/-! ### `main` -/

namespace HelloWorld

/-- `sizeof(plaintext)`, and of the other two arrays. -/
def arraySize : ℕ := 16 * 2000000

/-- Where the variables are. -/
structure Layout where
  dummy : ℕ
  test1Text : ℕ
  plaintext : ℕ
  cipher : ℕ
  test1Text_inDdr : test1Text + 32 ≤ 0x20000000
  plaintext_inDdr : plaintext + arraySize ≤ 0x20000000
  apart : plaintext + arraySize ≤ cipher ∨ cipher + arraySize ≤ plaintext

/-- `"aaa aaa aaa aaaa"`. -/
def test1Key : ByteBlock :=
  #v[0x61, 0x61, 0x61, 0x20, 0x61, 0x61, 0x61, 0x20, 0x61, 0x61, 0x61, 0x20, 0x61, 0x61, 0x61, 0x61]

/-- `"protect strawbry"`. -/
def fileTestKey : ByteBlock :=
  #v[0x70, 0x72, 0x6f, 0x74, 0x65, 0x63, 0x74, 0x20, 0x73, 0x74, 0x72, 0x61, 0x77, 0x62, 0x72, 0x79]

/-- `n_blocks`. -/
def nBlocks (bytesRead : ℕ) : ℕ := (bytesRead + 16 - 1) / 16

section test1
variable (l : Layout)

/-- The first test flushes, encrypts and invalidates as `aes_hw_encrypt_flushing` does. -/
def test1 : Call .configured where
  function := .encryptFlushing
  key := test1Key.get
  buffer := ⟨l.test1Text, 2, Nat.le_succ 1, l.test1Text_inDdr⟩
  small _ := by
    show (16 * (2 : ℕ) : ℤ) ≤ AesHw.maxDmaSize AesHw.sgLengthWidth
    decide

/-- The state before `aes_hw_init`. -/
def start (memory : ℕ → BitVec 8) (keyReg : AesBlock) : Board :=
  driverStart memory keyReg l.dummy [test1 l]

theorem nBlocks_le {bytesRead : ℕ} (hsize : bytesRead ≤ arraySize) : 16 * nBlocks bytesRead ≤ arraySize := by
  unfold nBlocks arraySize at *
  omega

/-- After the first test the board is idle. -/
theorem test1_atRest {l : Layout} {memory : ℕ → BitVec 8} {keyReg : AesBlock} {b₁ : Board}
    (h₁ : Board.Reaches .configured (start l memory keyReg) b₁)
    (hdone : b₁.program = []) : b₁.AtRest ∧ b₁.refused = [] := by
  have hblocking : ∀ c ∈ [test1 l], c.function.isBlocking = true := by
    intro c hc
    obtain rfl := List.mem_singleton.mp hc
    rfl
  have hserial := serial_driver hblocking h₁
  exact ⟨(hserial.finished hdone).2, hserial.refused⟩

end test1

section main
variable [SizeT] (l : Layout)

/-- After the first test the file is read to `plaintext` and encrypted by the software. -/
def softwareTest {bytesRead : ℕ} (file : Fin bytesRead → BitVec 8) (s : Machine) : Machine :=
  ecbEncrypt fileTestKey l.plaintext (nBlocks bytesRead * 16) l.cipher
    { s with memory := Memory.store s.memory l.plaintext file }

/-- Then it is encrypted by the hardware. -/
def hardwareTest {bytesRead : ℕ} (file : Fin bytesRead → BitVec 8) (roundKey : RoundKeys)
    (b : Board) : Board :=
  { b with
    memory := (softwareTest l file ⟨b.memory, roundKey⟩).memory
    program := instrs 2 (AesHw.timeTestEncrypt Platform.configured.lengthWidth fileTestKey.get
      l.plaintext (nBlocks bytesRead)) ++ [⟨2, none⟩] }

/-- The byte at which the loop over the two results breaks. -/
def missesMatchAt (memory : ℕ → BitVec 8) (bytesRead : ℕ) : Option ℕ :=
  (List.range (nBlocks bytesRead * 16)).find? fun i =>
    memory (l.plaintext + i) != memory (l.cipher + i)

/-- `matches`, as it is printed. -/
def swAndHwMatches (memory : ℕ → BitVec 8) (bytesRead : ℕ) : ℕ :=
  if (missesMatchAt l memory bytesRead).isNone then 1 else 0

variable {l} {memory : ℕ → BitVec 8} {keyReg : AesBlock} {b₁ b₂ : Board} {bytesRead : ℕ}
  {file : Fin bytesRead → BitVec 8} {roundKey : RoundKeys}

variable (l file roundKey) in
/-- The second test finds it so. -/
theorem hardwareTest_jobs (hsize : bytesRead ≤ arraySize) (hrest : b₁.AtRest) : ∃ j : Job .configured,
    hardwareTest l file roundKey b₁ = Board.embed b₁ []
      (Board.idle (softwareTest l file ⟨b₁.memory, roundKey⟩).memory b₁.keyReg
        ([j].flatMap Job.program)) ∧
      [j].flatMap Job.tasks =
        tasksOf fileTestKey.get (blockAddrs l.plaintext (nBlocks bytesRead)) := by
  have hddr := l.plaintext_inDdr
  have hle := nBlocks_le hsize
  obtain ⟨j, hprogram, htasks⟩ := exists_job_timeTest (p := .configured) 2 fileTestKey.get
    l.plaintext (n := nBlocks bytesRead) (by omega)
  refine ⟨j, ?_, by rw [List.flatMap_singleton, htasks]⟩
  rw [List.flatMap_singleton, hprogram]
  exact hrest.eq_embed _ _

/-- Once both have encrypted the file, no byte differs. -/
theorem missesMatchAt_eq_none (hsize : bytesRead ≤ arraySize) (s : Machine) :
    missesMatchAt l (sequential .configured
      (tasksOf fileTestKey.get (blockAddrs l.plaintext (nBlocks bytesRead)))
        (softwareTest l file s).memory) bytesRead = none := by
  have hle := nBlocks_le hsize
  have hapart := l.apart
  apply List.find?_eq_none.mpr
  intro i hi
  have hlt : i < 16 * nBlocks bytesRead := by
    have := List.mem_range.mp hi
    omega
  have hplain : readBlock (softwareTest l file s).memory (l.plaintext + 16 * (i / 16)) =
      readBlock (Memory.store s.memory l.plaintext file) (l.plaintext + 16 * (i / 16)) := by
    funext j
    exact MicroAes.ecbEncrypt_of_outside _ _ _ _ _ (by omega)
  have hhardware := readBlock_sequential fileTestKey.get (softwareTest l file s).memory l.plaintext
    (nBlocks bytesRead) (show i / 16 < nBlocks bytesRead by omega)
  have hsoftware := MicroAes.readBlock_ecbEncrypt fileTestKey l.plaintext (nBlocks bytesRead * 16)
    l.cipher { s with memory := Memory.store s.memory l.plaintext file }
    (show i / 16 < (nBlocks bytesRead * 16 + 15) / 16 by omega)
  rw [MicroAes.messageBlock_of_full _ _ (by omega)] at hsoftware
  rw [hplain, ← hsoftware] at hhardware
  rw [apply_of_readBlock hhardware, sequential_of_outside _ _ _ _ (by omega), softwareTest]
  simp

end main

/-- The arrays as the linker may place them. -/
def exampleLayout : Layout where
  dummy := 0x80000
  test1Text := 0x90000
  plaintext := 0x100000
  cipher := 0x2000000
  test1Text_inDdr := by decide
  plaintext_inDdr := by decide
  apart := by decide

end HelloWorld

end AesAccelerator

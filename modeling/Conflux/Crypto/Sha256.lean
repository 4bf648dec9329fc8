import Conflux.Core.Slice
import Mathlib.Tactic.IntervalCases

/-!
# Hashing a message in pieces

A hash state holds the bytes of a block that is not full yet. The compression function is any
function.
-/

namespace Conflux.Crypto

/-- Bytes of a message, a key or a digest. -/
abbrev Bytes := List UInt8

/-- The words that blocks are folded into. -/
abbrev Words := Vector UInt32 8

open Conflux.Core List

/-- A hash in progress. -/
structure Sha256State where
  h : Words
  /-- The last block; only its first `pendingSize` bytes count. -/
  pending : Bytes := replicate 64 0
  bytes : UInt64 := 0
  pendingSize : Nat := 0

/-- The two padded keys of HMAC. -/
structure HmacSha256Key where
  inner : Bytes
  outer : Bytes

/-- Copy bytes into an array. -/
def copyAt (array : Bytes) (off : Nat) (src : Bytes) : Bytes :=
  array.take off ++ src ++ array.drop (off + src.length)

/-- The initial state of FIPS 180-4. -/
def sha256Init : Sha256State where
  h := #v[0x6a09e667, 0xbb67ae85, 0x3c6ef372, 0xa54ff53a, 0x510e527f, 0x9b05688c, 0x1f83d9ab,
    0x5be0cd19]

/-- The words of a hash, the highest byte of each first. -/
def digest (h : Words) : Bytes :=
  ofFn fun i : Fin 32 =>
    ((h.get ⟨i / 4, by omega⟩ >>> (24 - UInt32.ofNat (i % 4) * 8)) &&& 0xFF).toUInt8

/-- The bytes of a length, the highest one first. -/
def lengthBytes (bitLen : UInt64) : Bytes :=
  (range 8).map fun i => ((bitLen >>> (56 - UInt64.ofNat i * 8)) &&& 0xFF).toUInt8

section

variable (compress : Words → Bytes → Words)

/-- The loop over the whole blocks of a message, and what it leaves of the message. -/
def compressBlocks (h : Words) (msg : Bytes) : Words × Bytes :=
  if 64 ≤ msg.length then compressBlocks (compress h (msg.take 64)) (msg.drop 64) else (h, msg)
termination_by msg.length

/-- Bytes of the message go to a block that was begun, which is compressed once it is full. -/
def fillPending (state : Sha256State) (msg : Bytes) : Sha256State × Bytes :=
  if state.pendingSize ≠ 0 then
    let n := min msg.length (64 - state.pendingSize)
    let pending := copyAt state.pending state.pendingSize (msg.take n)
    let state := { state with pending := pending, pendingSize := state.pendingSize + n }
    let state := if state.pendingSize = 64 then
      { state with h := compress state.h pending, pendingSize := 0 } else state
    (state, msg.drop n)
  else (state, msg)

/-- Hash a further piece of the message. -/
def sha256Update (state : Sha256State) (msg : Bytes) : Sha256State :=
  let state := { state with bytes := state.bytes + UInt64.ofNat msg.length }
  let (state, msg) := fillPending compress state msg
  let (h, msg) := compressBlocks compress state.h msg
  if msg.isEmpty then { state with h := h }
  else { state with h := h, pending := copyAt state.pending 0 msg, pendingSize := msg.length }

/-- Pad the message and give its digest. -/
def sha256Final (state : Sha256State) : Bytes :=
  let bitLen := state.bytes * 8
  let pending := copyAt state.pending state.pendingSize [0x80]
  let size := state.pendingSize + 1
  let (h, pending, size) :=
    if 56 < size then
      let pending := copyAt pending size (replicate (64 - size) 0)
      (compress state.h pending, pending, 0)
    else (state.h, pending, size)
  let pending := copyAt pending size (replicate (56 - size) 0)
  digest (compress h (copyAt pending 56 (lengthBytes bitLen)))

/-- The digest of a message. -/
def sha256NoAlloc (msg : Bytes) : Bytes :=
  sha256Final compress (sha256Update compress sha256Init msg)

/-- Fit a key to a block and pad it for both hashes. -/
def hmacSha256Key (key : Bytes) : HmacSha256Key :=
  let kpad := copyAt (replicate 64 0) 0
    (if 64 < key.length then sha256NoAlloc compress key else key)
  ⟨kpad.map (· ^^^ 0x36), kpad.map (· ^^^ 0x5C)⟩

/-- HMAC of the two pieces `a` and `b`. -/
def hmacSha256Precomputed (key : HmacSha256Key) (a b : Bytes) : Bytes :=
  let inner := sha256Update compress sha256Init key.inner
  let inner := sha256Update compress inner a
  let inner := sha256Update compress inner b
  let innerDigest := sha256Final compress inner
  let outer := sha256Update compress sha256Init key.outer
  let outer := sha256Update compress outer innerDigest
  sha256Final compress outer

/-! ## The standards -/

/-- The length of a message in bits, as a number of 64 bits. -/
def lengthField (n : Nat) : Bytes := (range 8).map fun i => UInt8.ofNat (8 * n / 256 ^ (7 - i))

/-- The padding of FIPS 180-4: a one bit, then as many zero bits as complete a block with the
length. -/
def padded (msg : Bytes) : Bytes :=
  msg ++ (0x80 :: replicate ((119 - msg.length % 64) % 64) 0) ++ lengthField msg.length

/-- The hash of FIPS 180-4. -/
def sha256 (msg : Bytes) : Bytes :=
  digest ((blocks 64 (padded msg)).foldl compress sha256Init.h)

/-- The keyed hash of RFC 2104. -/
def hmacSha256 (key text : Bytes) : Bytes :=
  let key := if 64 < key.length then sha256 compress key else key
  let key := key ++ replicate (64 - key.length) 0
  sha256 compress (key.map (· ^^^ 0x5C) ++ sha256 compress (key.map (· ^^^ 0x36) ++ text))

end

/-! ## Blocks and numbers -/

/-- A block of 64 bytes that begins with the given ones. -/
structure Begins (block p : Bytes) : Prop where
  length : block.length = 64
  begins : p <+: block

section

variable {block p : Bytes} (h : Begins block p)
include h

/-- Bytes are copied after the ones that count. -/
theorem Begins.copy {src : Bytes} (hfits : p.length + src.length ≤ 64) :
    Begins (copyAt block p.length src) (p ++ src) := by
  have hlen := h.length
  rw [copyAt, ← prefix_iff_eq_take.mp h.begins]
  refine ⟨?_, prefix_append _ _⟩
  rw [length_append, length_append, length_drop]
  omega

theorem Begins.eq (hfull : p.length = 64) : block = p :=
  (h.begins.eq_of_length (hfull.trans h.length.symm)).symm

/-- The rest of a block: zeros, and a field at its end. -/
theorem Begins.last {field : Bytes} (hfield : field.length = 8) (hp : p.length ≤ 56) :
    copyAt (copyAt block p.length (replicate (56 - p.length) 0)) 56 field =
        p ++ replicate (56 - p.length) 0 ++ field ∧
      (p ++ replicate (56 - p.length) 0 ++ field).length = 64 := by
  have hlen : (p ++ replicate (56 - p.length) 0).length = 56 := by
    rw [length_append, length_replicate]
    omega
  have hfull : (p ++ replicate (56 - p.length) 0 ++ field).length = 64 := by
    rw [length_append, hlen, hfield]
  have hzeros := @Begins.copy _ _ h (replicate (56 - p.length) 0) (by rw [length_replicate]; omega)
  have hlast := @Begins.copy _ _ hzeros field (by omega)
  rw [hlen] at hlast
  exact ⟨hlast.eq hfull, hfull⟩

end

theorem lengthBytes_ofNat (n : Nat) : lengthBytes (UInt64.ofNat n * 8) = lengthField n := by
  apply map_congr_left
  intro i hi
  have hlt := mem_range.mp hi
  have hshift : (56 - UInt64.ofNat i * 8).toNat = 8 * (7 - i) := by
    interval_cases i <;> rfl
  have hnat : (UInt64.ofNat n * 8).toNat = 8 * n % 256 ^ (7 - i + (i + 1)) := by
    rw [UInt64.toNat_mul, UInt64.toNat_ofNat', Nat.mod_mul_mod, Nat.mul_comm,
      show 7 - i + (i + 1) = 8 by omega]
    rfl
  apply UInt8.toNat_inj.mp
  rw [UInt64.toUInt8_and, show (0xFF : UInt64).toUInt8 = -1 from rfl, UInt8.and_neg_one,
    UInt64.toNat_toUInt8, UInt64.toNat_shiftRight, hshift,
    Nat.mod_eq_of_lt (show 8 * (7 - i) < 64 by omega), Nat.shiftRight_eq_div_pow,
    UInt8.toNat_ofNat', Nat.pow_mul, hnat, Nat.pow_add]
  change 8 * n % (256 ^ (7 - i) * 256 ^ (i + 1)) / 256 ^ (7 - i) % 256 = _
  rw [Nat.mod_mul_right_div_self]
  exact Nat.mod_mod_of_dvd _ (Dvd.intro_left _ rfl)

/-! ## Updates -/

/-- The block that was begun holds the given bytes. -/
structure Begun (state : Sha256State) (t : Bytes) : Prop where
  pending : Begins state.pending t
  size : state.pendingSize = t.length
  lt : t.length < 64

section

variable (compress : Words → Bytes → Words) {state : Sha256State} {t : Bytes}

theorem compressBlocks_eq (h : Words) (msg : Bytes) :
    compressBlocks compress h msg = ((blocks 64 msg).foldl compress h, leftover 64 msg) := by
  fun_induction compressBlocks with
  | case1 h msg hlen ih =>
    have hb : (msg.take 64).length = 64 := length_take_of_le hlen
    have hblocks := blocks_block_append (by omega) hb (msg.drop 64)
    have hleft := leftover_block_append (by omega) hb (msg.drop 64)
    rw [take_append_drop] at hblocks hleft
    rw [ih, hblocks, hleft]
    rfl
  | case2 h msg hlen =>
    rw [blocks_of_lt (Nat.lt_of_not_le hlen), leftover_of_lt (Nat.lt_of_not_le hlen)]
    rfl

/-- After the block that was begun, either it is still begun or the message goes on alone. -/
theorem fillPending_spec (h : Begun state t) (msg : Bytes) :
    let r := fillPending compress state msg
    ∃ t', Begun r.1 t' ∧ (t' = [] ∨ r.2 = []) ∧ r.1.bytes = state.bytes ∧
      (blocks 64 (t ++ msg)).foldl compress state.h = (blocks 64 (t' ++ r.2)).foldl compress r.1.h ∧
      leftover 64 (t ++ msg) = leftover 64 (t' ++ r.2) := by
  obtain ⟨hpending, hsize, hlt⟩ := h
  rw [fillPending, hsize]
  by_cases hempty : t.length = 0
  · rw [if_neg (not_not.mpr hempty)]
    exact ⟨t, ⟨hpending, hsize, hlt⟩, .inl (length_eq_zero_iff.mp hempty), rfl, rfl, rfl⟩
  rw [if_pos hempty]
  dsimp only
  by_cases hfull : t.length + msg.length < 64
  · -- The message fits into the block.
    have hsum : (t ++ msg).length = t.length + msg.length := length_append
    rw [Nat.min_eq_left (by omega), take_length, drop_length, if_neg (by omega)]
    refine ⟨t ++ msg, ⟨hpending.copy (by omega), hsum.symm, by omega⟩, .inr rfl, rfl, ?_, ?_⟩
    all_goals rw [append_nil]
  -- The block is full and compressed.
  have hsplit : t ++ msg = (t ++ msg.take (64 - t.length)) ++ msg.drop (64 - t.length) := by
    rw [append_assoc, take_append_drop]
  have hlen : (t ++ msg.take (64 - t.length)).length = 64 := by
    rw [length_append, length_take]
    omega
  have hcopy := hpending.copy (Nat.le_of_eq (length_append.symm.trans hlen))
  rw [Nat.min_eq_right (by omega), hcopy.eq hlen, if_pos (by omega), hsplit,
    blocks_block_append (by omega) hlen, leftover_block_append (by omega) hlen]
  exact ⟨[], ⟨⟨hlen, nil_prefix⟩, rfl, by simp⟩, .inl rfl, rfl, rfl, rfl⟩

/-- What a state that hashed a message holds. -/
structure Hashed (state : Sha256State) (msg : Bytes) : Prop where
  h : state.h = (blocks 64 msg).foldl compress sha256Init.h
  begun : Begun state (leftover 64 msg)
  bytes : state.bytes = UInt64.ofNat msg.length

theorem hashed_init : Hashed compress sha256Init [] :=
  ⟨rfl, ⟨⟨rfl, nil_prefix⟩, rfl, by decide⟩, rfl⟩

variable {compress} {m : Bytes}

/-- An update hashes the message on. -/
theorem Hashed.update (hm : Hashed compress state m) (msg : Bytes) :
    Hashed compress (sha256Update compress state msg) (m ++ msg) := by
  obtain ⟨hblocks, hleft⟩ := blocks_append (k := 64) (by omega) m msg
  have hbytes : state.bytes + UInt64.ofNat msg.length = UInt64.ofNat (m ++ msg).length := by
    rw [hm.bytes, length_append, UInt64.ofNat_add]
  have hbegun : Begun { state with bytes := state.bytes + UInt64.ofNat msg.length }
      (leftover 64 m) := ⟨hm.begun.pending, hm.begun.size, hm.begun.lt⟩
  obtain ⟨t, ⟨hpending, hsize, hlt⟩, hcases, hsame, hfold, hrest⟩ :=
    fillPending_spec compress hbegun msg
  unfold sha256Update
  dsimp only at hfold hsame ⊢
  generalize fillPending compress
    { state with bytes := state.bytes + UInt64.ofNat msg.length } msg = r at *
  obtain ⟨s, rest⟩ := r
  dsimp only at hpending hsize hcases hsame hfold hrest ⊢
  rw [hm.h, ← foldl_append, ← hblocks] at hfold
  rw [← hleft] at hrest
  rw [compressBlocks_eq]
  dsimp only
  obtain rfl | rfl := hcases
  · -- The message goes on alone, and what is left over begins a block.
    rw [nil_append] at hfold hrest
    split
    · rename_i hnone
      refine ⟨hfold.symm, ?_, hsame.trans hbytes⟩
      rw [hrest, isEmpty_iff.mp hnone]
      exact ⟨hpending, hsize, hlt⟩
    · have hlast : (leftover 64 rest).length < 64 := by
        rw [length_leftover]
        exact Nat.mod_lt _ (by omega)
      refine ⟨hfold.symm, ?_, hsame.trans hbytes⟩
      rw [hrest]
      exact ⟨hpending.copy (by simp; omega), rfl, hlast⟩
  · -- The block is still begun.
    rw [append_nil, blocks_of_lt hlt] at hfold
    rw [append_nil, leftover_of_lt hlt] at hrest
    refine ⟨hfold.symm, ?_, hsame.trans hbytes⟩
    rw [hrest]
    exact ⟨hpending, hsize, hlt⟩

/-- The last blocks are those of the padding. -/
theorem Hashed.final (hm : Hashed compress state m) :
    sha256Final compress state = sha256 compress m := by
  obtain ⟨hh, ⟨hpending, hsize, hlt⟩, hbytes⟩ := hm
  have hfield : (lengthField m.length).length = 8 := rfl
  have hmark := @Begins.copy _ _ hpending [0x80] hlt
  have hone : (leftover 64 m ++ [0x80]).length = (leftover 64 m).length + 1 := length_append
  have hcount : (119 - m.length % 64) % 64 = (120 - (leftover 64 m ++ [0x80]).length) % 64 := by
    rw [hone, length_leftover]
    omega
  have hnil : blocks 64 ([] : Bytes) = [] := rfl
  unfold sha256Final
  dsimp only
  rw [sha256, padded, append_assoc, (blocks_append (by omega) m _).1, foldl_append, ← hh, hcount,
    cons_append, append_cons, hbytes, lengthBytes_ofNat, hsize, ← hone]
  generalize copyAt state.pending (leftover 64 m).length [0x80] = block at *
  generalize leftover 64 m ++ [0x80] = p at *
  generalize lengthField m.length = field at *
  by_cases htwo : 56 < p.length
  · -- The length goes to a block of its own.
    have hfirst := @Begins.copy _ _ hmark (replicate (64 - p.length) 0)
      (by rw [length_replicate]; omega)
    have hlen : (p ++ replicate (64 - p.length) 0).length = 64 := by
      rw [length_append, length_replicate]
      omega
    have hsplit : p ++ (replicate ((120 - p.length) % 64) 0 ++ field) =
        (p ++ replicate (64 - p.length) 0) ++ (([] ++ replicate (56 - 0) 0 ++ field) ++ []) := by
      rw [show (120 - p.length) % 64 = 64 - p.length + (56 - 0) by omega, replicate_add, append_nil,
        nil_append, append_assoc, append_assoc]
    obtain ⟨hlast, hfull⟩ := @Begins.last _ [] ⟨hfirst.length, nil_prefix⟩ _ hfield (Nat.zero_le _)
    rw [length_nil] at hlast hfull
    rw [if_pos htwo, hsplit, blocks_block_append (by omega) hlen,
      blocks_block_append (by omega) hfull, hnil]
    dsimp only
    rw [hlast, hfirst.eq hlen]
    rfl
  · obtain ⟨hlast, hfull⟩ := hmark.last hfield (Nat.le_of_not_lt htwo)
    have hsplit : p ++ (replicate ((120 - p.length) % 64) 0 ++ field) =
        (p ++ replicate (56 - p.length) 0 ++ field) ++ [] := by
      rw [show (120 - p.length) % 64 = 56 - p.length by omega, append_nil, append_assoc]
    rw [if_neg htwo, hsplit, blocks_block_append (by omega) hfull, hnil]
    dsimp only
    rw [hlast]
    rfl

variable (compress)

/-- The words of a message cut into pieces. -/
theorem hashed_pieces (hm : Hashed compress state m) (pieces : List Bytes) :
    Hashed compress (pieces.foldl (sha256Update compress) state) (m ++ pieces.flatten) := by
  induction pieces generalizing state m with
  | nil =>
    rw [flatten_nil, append_nil]
    exact hm
  | cons msg pieces ih =>
    rw [flatten_cons, ← append_assoc]
    exact ih (hm.update msg)

/-- However a message is cut into updates, the digest is that of the whole; and the keyed hash of
two pieces is that of their concatenation. -/
theorem sha256_incremental :
    (∀ pieces : List Bytes,
        sha256Final compress (pieces.foldl (sha256Update compress) sha256Init) =
          sha256 compress pieces.flatten) ∧
      ∀ key a b : Bytes, hmacSha256Precomputed compress (hmacSha256Key compress key) a b =
        hmacSha256 compress key (a ++ b) := by
  have hpieces (pieces : List Bytes) :
      sha256Final compress (pieces.foldl (sha256Update compress) sha256Init) =
        sha256 compress pieces.flatten :=
    (hashed_pieces compress (hashed_init compress) pieces).final
  refine ⟨hpieces, fun key a b => ?_⟩
  have hkey (k : Bytes) : copyAt (replicate 64 0) 0 k = k ++ replicate (64 - k.length) 0 := by
    rw [copyAt, drop_replicate, take_zero, nil_append, Nat.zero_add]
  have hone : sha256NoAlloc compress key = sha256 compress key := by
    simpa [sha256NoAlloc] using hpieces [key]
  have htwo (x y : Bytes) : sha256Final compress (sha256Update compress
      (sha256Update compress sha256Init x) y) = sha256 compress (x ++ y) := by
    simpa using hpieces [x, y]
  have hthree (x : Bytes) : sha256Final compress (sha256Update compress (sha256Update compress
      (sha256Update compress sha256Init x) a) b) = sha256 compress (x ++ (a ++ b)) := by
    simpa using hpieces [x, a, b]
  simp only [hmacSha256Precomputed, hmacSha256Key, hmacSha256, hkey, hone, htwo, hthree]

end

end Conflux.Crypto

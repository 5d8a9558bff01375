import GoExperiments.Lib.GoBasic
import GoExperiments.Lib.BlockMode
import GoExperiments.Lib.GoSlice

/-!
# Encrypting with zero padding

`aes-explore/aes-exploration-00.go` fills a plaintext up with zeros to a multiple of 32 bytes and
encrypts it block by block.  Nothing in the ciphertext says how long the plaintext was.

* `aesEncrypt`, `aesDecrypt` — the source, for any block cipher in the place of AES.
* `aesEncrypt_eq_iff` — two plaintexts have the same ciphertext exactly when they are padded alike.
* `aesDecrypt_aesEncrypt` — what is decrypted is the padded plaintext.
* `recoverable_iff` — the plaintexts that their ciphertext determines.
-/

namespace Aes

open GoSlice BlockMode Go

/-! ## The source -/

def aesKeyLen : ℕ := 32

/-- `aes.BlockSize`. -/
def blockSize : ℕ := 16

/-- AES, by key. -/
abbrev AesPkg := Bytes → BlockCipher UInt8 blockSize

/-- The keys of AES-128, AES-192 and AES-256. -/
def ValidKey (key : Bytes) : Prop := key.length = 16 ∨ key.length = 24 ∨ key.length = 32

instance (key : Bytes) : Decidable (ValidKey key) := inferInstanceAs (Decidable (_ ∨ _ ∨ _))

/-- `aes.NewCipher`. -/
def newCipher (aes : AesPkg) (key : Bytes) : Except String (BlockCipher UInt8 blockSize) :=
  if ValidKey key then .ok (aes key) else .error s!"crypto/aes: invalid key size {key.length}"

/-- The loop over the blocks; a slice expression panics if the last block is not full. -/
def cryptBlocks (f : Block UInt8 blockSize → Block UInt8 blockSize) (text : Bytes) :
    Except Fault Bytes :=
  match blockwise (by decide) f text with
  | none => .error Slice.boundsOutOfRange
  | some out => .ok out

/-- `aesEncrypt`.  The padded plaintext is made of zeros, and the plaintext is copied into it. -/
def aesEncrypt (aes : AesPkg) (aesKey plainText : Bytes) : Except Fault Bytes :=
  match newCipher aes aesKey with
  | .error err => .error (.err s!"NewCipher({aesKey.length} bytes): {err}")
  | .ok cipherBlock =>
      let padSize := plainText.length + (aesKeyLen - plainText.length % aesKeyLen)
      let paddedPlaintext := plainText ++ List.replicate (padSize - plainText.length) 0
      cryptBlocks cipherBlock.encrypt paddedPlaintext

/-- `aesDecrypt`.  The format of its error text has an argument too few. -/
def aesDecrypt (aes : AesPkg) (aesKey cipherText : Bytes) : Except Fault Bytes :=
  match newCipher aes aesKey with
  | .error err => .error (.err s!"NewCipher({aesKey.length} bytes) = %!s(MISSING): {err}")
  | .ok cipherBlock => cryptBlocks cipherBlock.decrypt cipherText

/-! ## Encryption is padding and a bijection -/

/-- The padding of `aesEncrypt`. -/
def padded (plainText : Bytes) : Bytes := pad aesKeyLen 0 plainText

theorem full_padded (plainText : Bytes) : Full blockSize (padded plainText) := by
  refine full_of_dvd ?_
  rw [padded, length_pad (by decide)]
  exact Nat.dvd_mul_right_of_dvd (by decide) _

variable {aes : AesPkg} {key : Bytes}

theorem newCipher_eq (hkey : ValidKey key) : newCipher aes key = .ok (aes key) := if_pos hkey

theorem aesEncrypt_eq (hkey : ValidKey key) (p : Bytes) :
    aesEncrypt aes key p = cryptBlocks (aes key).encrypt (padded p) := by
  simp only [aesEncrypt, newCipher_eq hkey, Nat.add_sub_cancel_left]
  rfl

/-- **Same ciphertext, same padded plaintext.** -/
theorem aesEncrypt_eq_iff (hkey : ValidKey key) (p q : Bytes) :
    aesEncrypt aes key p = aesEncrypt aes key q ↔ padded p = padded q := by
  rw [aesEncrypt_eq hkey, aesEncrypt_eq hkey]
  constructor
  · intro h
    have hundo := (aes key).decrypt_encrypt
    obtain ⟨c, hp, -⟩ := blockwise_undo (by decide) hundo (full_padded p)
    obtain ⟨d, hq, -⟩ := blockwise_undo (by decide) hundo (full_padded q)
    simp only [cryptBlocks, hp, hq, Except.ok.injEq] at h
    refine blockwise_inj (by decide) hundo (full_padded p) (full_padded q) ?_
    rw [hp, hq, h]
  · intro h
    rw [h]

/-- **Decrypting gives the padded plaintext.** -/
theorem aesDecrypt_aesEncrypt (hkey : ValidKey key) (p : Bytes) :
    ∃ c, aesEncrypt aes key p = .ok c ∧ aesDecrypt aes key c = .ok (padded p) := by
  obtain ⟨c, hdo, hundo⟩ := blockwise_undo (by decide) (aes key).decrypt_encrypt (full_padded p)
  refine ⟨c, ?_, ?_⟩
  · rw [aesEncrypt_eq hkey]
    simp only [cryptBlocks, hdo]
  · rw [aesDecrypt, newCipher_eq hkey]
    simp only [cryptBlocks, hundo]

/-! ## Recovering the plaintext -/

/-- **Which plaintexts can be recovered.**  For every valid key, two plaintexts have the same
ciphertext exactly when they have the same number of full groups of 32 bytes and differ by zero
bytes at the end.  So a plaintext is the only one with its ciphertext exactly when its last group
has 31 bytes, of which the last is not zero. -/
theorem recoverable_iff (aes : AesPkg) (key : Bytes) (hkey : ValidKey key) (p : Bytes) :
    (∀ q, aesEncrypt aes key p = aesEncrypt aes key q ↔ p.length / 32 = q.length / 32 ∧
      ∃ k, q = p ++ List.replicate k 0 ∨ p = q ++ List.replicate k 0) ∧
    ((∀ q, aesEncrypt aes key p = aesEncrypt aes key q → p = q) ↔
      p.length % 32 = 31 ∧ p.getLast? ≠ some 0) := by
  have hroom : p.length % aesKeyLen + 1 = aesKeyLen ↔ p.length % 32 = 31 := by
    rw [show aesKeyLen = 32 from rfl]
    omega
  simp only [aesEncrypt_eq_iff hkey]
  constructor
  · intro q
    exact pad_eq_iff (by decide)
  · rw [← hroom]
    exact pad_recoverable_iff (by decide) 0 p

/-- The exclusive or of a block with the key. -/
def xorBlock (key : Bytes) (b : Block UInt8 blockSize) : Block UInt8 blockSize :=
  ⟨b.1.mapIdx fun i x => x ^^^ key.getD i 0, by rw [List.length_mapIdx, b.2]⟩

theorem xorBlock_xorBlock (key : Bytes) (b : Block UInt8 blockSize) :
    xorBlock key (xorBlock key b) = b := by
  refine Subtype.ext (List.ext_getElem? fun i => ?_)
  simp only [xorBlock, List.getElem?_mapIdx, Option.map_map]
  cases b.1[i]? with
  | none => rfl
  | some x =>
      show some ((x ^^^ key.getD i 0) ^^^ key.getD i 0) = some x
      rw [UInt8.xor_assoc, UInt8.xor_self, UInt8.xor_zero]

/-- A cipher that depends on its key. -/
def xorCipher : AesPkg := fun key =>
  ⟨xorBlock key, xorBlock key, xorBlock_xorBlock key, xorBlock_xorBlock key⟩

/-- The key of the bytes 0 to 31. -/
def countingKey : Bytes := (List.range 32).map UInt8.ofNat

/-- Thirty-one ones are told apart from the same with a zero behind them. -/
theorem recoverable_ones :
    ValidKey countingKey ∧
      aesEncrypt xorCipher countingKey (List.replicate 31 1) ≠
        aesEncrypt xorCipher countingKey (List.replicate 31 1 ++ [0]) := by
  have hkey : ValidKey countingKey := by decide
  refine ⟨hkey, fun h => ?_⟩
  have hunique := (recoverable_iff xorCipher _ hkey (List.replicate 31 1)).2.2 (by decide)
  exact absurd (hunique _ h) (by decide)

/-- The empty plaintext and a zero byte have the same ciphertext. -/
theorem zero_byte_lost :
    aesEncrypt xorCipher countingKey [] = aesEncrypt xorCipher countingKey [0] ∧
      ([] : Bytes) ≠ [0] :=
  ⟨(aesEncrypt_eq_iff (by decide) [] [0]).2 (by decide), by decide⟩

end Aes

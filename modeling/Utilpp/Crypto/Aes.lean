import Utilpp.Buffer.CharBuffer
import Utilpp.Lib.Cbc

/-!
# AES in pieces

`CryptoLibAESEncryptBegin`, `Update` and `Final` and their counterparts for decryption, built with
OpenSSL. The EVP functions are CBC streams over a block cipher; they write at the end of the buffer
and report how much they wrote. The wrapper gives EVP the key as initialisation vector, and never
sets the length of the buffer: its view stays empty, and every piece is written over the one before.
-/

namespace Utilpp.Crypto

open Lib Lib.Cbc Buffer

/-- `AESWorkData_t`: the EVP context. -/
structure AESWorkData where
  key : List UInt8
  stream : Stream
  deriving DecidableEq, Repr

/-- The conversion of a size to `int`. -/
def toInt (size : Nat) : Int := Int.bmod size (2 ^ 32)

/-- `CryptoLibAESEncryptBegin` and `CryptoLibAESDecryptBegin`. EVP reads 32 bytes of key and 16
bytes of initialisation vector; both pointers are the key. -/
def begin (key _iv : List UInt8) : Option AESWorkData :=
  if key = [] then none
  else some { key := key.take 32, stream := { chain := key.take 16, rest := [] } }

/-- A call of `Update`, with what EVP put out. `inl` is the size of `src` as an `int`; EVP fails
when it is negative. -/
def update (process : AESWorkData → List UInt8 → Stream × List UInt8) (data : AESWorkData)
    (src : List UInt8) (inl : Int) (buf : FCharBuffer) :
    Option (AESWorkData × FCharBuffer × List UInt8) := do
  -- EVP may put out more than the piece has, and `Reserve` takes a `uint32_t`
  let buf ← buf.reserve (UInt32.ofNat (buf.cursor + src.length))
  if inl < 0 then some (data, buf, [])
  else
    let (stream, out) := process data (src.take inl.toNat)
    -- the length of the buffer is not set
    let buf ← buf.write buf.cursor (out.map some)
    some ({ data with stream := stream }, buf, out)

/-- A call of `Final`, with what EVP put out. -/
def final (output : AESWorkData → List UInt8) (data : AESWorkData) (buf : FCharBuffer) :
    Option (FCharBuffer × List UInt8) := do
  let buf ← buf.write buf.cursor ((output data).map some)
  some (buf, output data)

/-- Calls of `Update` for all pieces and a call of `Final`. -/
def all (process : AESWorkData → List UInt8 → Stream × List UInt8)
    (output : AESWorkData → List UInt8) (data : AESWorkData) (buf : FCharBuffer) :
    List (List UInt8) → Option (FCharBuffer × List UInt8)
  | [] => final output data buf
  | src :: pieces => do
      let (data, buf, out) ← update process data src (toInt src.length) buf
      let (buf, outs) ← all process output data buf pieces
      some (buf, out ++ outs)

section

variable (cipher : BlockCipher)

/-- `EVP_EncryptUpdate` -/
def evpEncryptUpdate (data : AESWorkData) (src : List UInt8) : Stream × List UInt8 :=
  data.stream.encrypt (cipher.encrypt data.key) src

/-- `EVP_EncryptFinal_ex` -/
def evpEncryptFinal (data : AESWorkData) : List UInt8 :=
  data.stream.encryptFinal (cipher.encrypt data.key)

/-- `EVP_DecryptUpdate` -/
def evpDecryptUpdate (data : AESWorkData) (src : List UInt8) : Stream × List UInt8 :=
  data.stream.decrypt (cipher.decrypt data.key) src

/-- `EVP_DecryptFinal_ex` writes nothing when the padding is wrong. -/
def evpDecryptFinal (data : AESWorkData) : List UInt8 :=
  (data.stream.decryptFinal (cipher.decrypt data.key)).getD []

/-- `CryptoLibAESEncryptUpdate` for all pieces and `CryptoLibAESEncryptFinal`. -/
def encryptAll (data : AESWorkData) (buf : FCharBuffer) (pieces : List (List UInt8)) :
    Option (FCharBuffer × List UInt8) :=
  all (evpEncryptUpdate cipher) (evpEncryptFinal cipher) data buf pieces

/-- `CryptoLibAESDecryptUpdate` for all pieces and `CryptoLibAESDecryptFinal`. -/
def decryptAll (data : AESWorkData) (buf : FCharBuffer) (pieces : List (List UInt8)) :
    Option (FCharBuffer × List UInt8) :=
  all (evpDecryptUpdate cipher) (evpDecryptFinal cipher) data buf pieces

/-- The buffer ends up with the ciphertext of the whole message under the given key and
initialisation vector, and every split of it is decrypted to the message, without a write beyond the
capacity of a buffer. -/
structure RoundTrips (key iv : List UInt8) (pieces : List (List UInt8)) : Prop where
  encrypts : ∃ data buf out, begin key iv = some data ∧
    encryptAll cipher data .new pieces = some (buf, out) ∧
    buf.view = some ((encryptCbc (cipher.encrypt key) iv pieces.flatten).map some)
  decrypts : ∀ pieces', pieces'.flatten = encryptCbc (cipher.encrypt key) iv pieces.flatten →
    ∃ data buf out, begin key iv = some data ∧
      decryptAll cipher data .new pieces' = some (buf, out) ∧
      buf.view = some (pieces.flatten.map some)

end

/-! ## The length of the buffer -/

theorem write_cursor {b b' : FCharBuffer} {pos : Nat} {cells : List (Option UInt8)}
    (h : b.write pos cells = some b') : b'.cursor = b.cursor := by
  unfold FCharBuffer.write at h
  split at h
  · split at h
    · cases h
      rfl
    · cases h
  · split at h
    · obtain ⟨block, -, rfl⟩ := Option.map_eq_some_iff.mp h
      rfl
    · cases h

theorem reserve_cursor {b b' : FCharBuffer} {size : UInt32} (h : b.reserve size = some b') :
    b'.cursor = b.cursor := by
  unfold FCharBuffer.reserve at h
  simp only [] at h
  split at h
  · cases h
    rfl
  · obtain ⟨block, -, hb⟩ := Option.bind_eq_some_iff.mp h
    cases hb
    rfl

section

variable {process : AESWorkData → List UInt8 → Stream × List UInt8}
  {output : AESWorkData → List UInt8} {data : AESWorkData} {buf buf' : FCharBuffer}

theorem update_cursor {src : List UInt8} {inl : Int}
    {result : AESWorkData × FCharBuffer × List UInt8}
    (h : update process data src inl buf = some result) : result.2.1.cursor = buf.cursor := by
  obtain ⟨reserved, hreserved, h⟩ := Option.bind_eq_some_iff.mp h
  have hcursor := reserve_cursor hreserved
  split at h
  · cases h
    exact hcursor
  · obtain ⟨written, hwritten, h⟩ := Option.bind_eq_some_iff.mp h
    cases h
    exact (write_cursor hwritten).trans hcursor

theorem final_cursor {out : List UInt8} (h : final output data buf = some (buf', out)) :
    buf'.cursor = buf.cursor := by
  obtain ⟨written, hwritten, h⟩ := Option.bind_eq_some_iff.mp h
  cases h
  exact write_cursor hwritten

/-- No call sets the length of the buffer. -/
theorem all_cursor {pieces : List (List UInt8)} {out : List UInt8}
    (h : all process output data buf pieces = some (buf', out)) : buf'.cursor = buf.cursor := by
  induction pieces generalizing data buf out with
  | nil => exact final_cursor h
  | cons src pieces ih =>
      obtain ⟨⟨data', updated, first⟩, hupdate, h⟩ := Option.bind_eq_some_iff.mp h
      obtain ⟨⟨last, outs⟩, hrest, h⟩ := Option.bind_eq_some_iff.mp h
      cases h
      exact (ih hrest).trans (update_cursor hupdate)

end

/-- A buffer without length has an empty view. -/
theorem view_of_cursor {b : FCharBuffer} (h : b.cursor = 0) : b.view = some [] := by
  rw [FCharBuffer.view, h, FCharBuffer.read]
  cases b.pBuf with
  | none => rfl
  | some block => rfl

/-- There is always padding. -/
theorem encryptCbc_ne_nil (cipher : BlockCipher) (key : List UInt8) {iv : List UInt8}
    (hiv : iv.length = 16) (message : List UInt8) :
    encryptCbc (cipher.encrypt key) iv message ≠ [] := by
  intro hnil
  have hblocks : ∀ block ∈ blocks (message.length / 16 + 1) (pad message), block.length = 16 :=
    fun _ hmem => length_of_mem_blocks (Nat.le_of_eq (length_pad message).symm) hmem
  have hlength := length_flatten_of_length
    (length_of_mem_chainEncrypt (cipher.length_encrypt key) hiv hblocks)
  rw [length_chainEncrypt, length_blocks] at hlength
  have hzero : (encryptCbc (cipher.encrypt key) iv message).length = 0 := by rw [hnil]; rfl
  exact absurd (hlength.symm.trans hzero) (by omega)

/-- Whatever is encrypted, the buffer does not end up with the ciphertext. -/
theorem aes_never_round_trips (cipher : BlockCipher) (key : Vector UInt8 32) (iv : Vector UInt8 16)
    (pieces : List (List UInt8)) : ¬ RoundTrips cipher key.toList iv.toList pieces := by
  intro h
  obtain ⟨data, buf, out, -, hall, hview⟩ := h.encrypts
  rw [view_of_cursor (all_cursor hall), Option.some.injEq] at hview
  exact encryptCbc_ne_nil cipher key.toList iv.length_toList pieces.flatten
    (List.map_eq_nil_iff.mp hview.symm)

/-- No cipher encrypts a byte into the view, and the padding of an empty message is written through
a null pointer. -/
theorem byte_not_encrypted :
    (¬ ∃ cipher, RoundTrips cipher (List.replicate 32 1) (List.replicate 16 2) [[3]]) ∧
      ¬ ∃ cipher data result, begin (List.replicate 32 1) (List.replicate 16 2) = some data ∧
        encryptAll cipher data .new [] = some result := by
  constructor
  · rintro ⟨cipher, h⟩
    obtain ⟨data, buf, out, -, hall, hview⟩ := h.encrypts
    rw [view_of_cursor (all_cursor hall), Option.some.injEq] at hview
    exact encryptCbc_ne_nil cipher _ rfl _ (List.map_eq_nil_iff.mp hview.symm)
  · rintro ⟨cipher, data, result, hbegin, hall⟩
    cases hbegin
    obtain ⟨written, hwritten, -⟩ := Option.bind_eq_some_iff.mp hall
    have hlength : (List.replicate 16 (1 : UInt8)).length = 16 := rfl
    refine encryptCbc_ne_nil cipher (List.replicate 32 1) hlength [] ?_
    have hnull : (encryptCbc (cipher.encrypt (List.replicate 32 1)) (List.replicate 16 1) []).map
        some = [] := by
      by_contra hne
      exact nomatch (if_neg hne).symm.trans hwritten
    exact List.map_eq_nil_iff.mp hnull

/-! ## What EVP puts out -/

theorem toInt_of_lt {size : Nat} (h : size < 2 ^ 31) : toInt size = size := by
  have hbmod := Int.bmod_def size (2 ^ 32)
  unfold toInt
  omega

variable {cipher : BlockCipher}

theorem update_output {process : AESWorkData → List UInt8 → Stream × List UInt8}
    {data : AESWorkData} {src : List UInt8} {buf : FCharBuffer}
    {result : AESWorkData × FCharBuffer × List UInt8}
    (hsrc : src.length < 2 ^ 31)
    (h : update process data src (toInt src.length) buf = some result) :
    result.1 = { data with stream := (process data src).1 } ∧
      result.2.2 = (process data src).2 := by
  rw [toInt_of_lt hsrc] at h
  obtain ⟨reserved, -, h⟩ := Option.bind_eq_some_iff.mp h
  rw [if_neg (by omega), Int.toNat_natCast, List.take_length] at h
  obtain ⟨written, -, h⟩ := Option.bind_eq_some_iff.mp h
  cases h
  exact ⟨rfl, rfl⟩

/-- All that EVP puts out. -/
def outputs (process : AESWorkData → List UInt8 → Stream × List UInt8)
    (output : AESWorkData → List UInt8) (data : AESWorkData) : List (List UInt8) → List UInt8
  | [] => output data
  | src :: pieces =>
      (process data src).2 ++
        outputs process output { data with stream := (process data src).1 } pieces

theorem all_output {process : AESWorkData → List UInt8 → Stream × List UInt8}
    {output : AESWorkData → List UInt8} {data : AESWorkData} {pieces : List (List UInt8)}
    {start buf : FCharBuffer} {out : List UInt8} (hpieces : ∀ src ∈ pieces, src.length < 2 ^ 31)
    (hall : all process output data start pieces = some (buf, out)) :
    out = outputs process output data pieces := by
  induction pieces generalizing data start out with
  | nil =>
      obtain ⟨written, -, h⟩ := Option.bind_eq_some_iff.mp hall
      cases h
      rfl
  | cons src pieces ih =>
      obtain ⟨⟨data', updated, first⟩, hupdate, h⟩ := Option.bind_eq_some_iff.mp hall
      obtain ⟨⟨last, outs⟩, hrest, h⟩ := Option.bind_eq_some_iff.mp h
      cases h
      obtain ⟨rfl, rfl⟩ := update_output (hpieces src List.mem_cons_self) hupdate
      rw [ih (fun s hs => hpieces s (List.mem_cons_of_mem _ hs)) hrest]
      rfl

theorem outputs_encrypt (data : AESWorkData) (pieces : List (List UInt8)) :
    outputs (evpEncryptUpdate cipher) (evpEncryptFinal cipher) data pieces =
      data.stream.encryptPieces (cipher.encrypt data.key) pieces := by
  induction pieces generalizing data with
  | nil => rfl
  | cons src pieces ih =>
      rw [outputs, ih]
      rfl

theorem outputs_decrypt {data : AESWorkData} {pieces : List (List UInt8)} {message : List UInt8}
    (h : data.stream.decryptPieces (cipher.decrypt data.key) pieces = some message) :
    outputs (evpDecryptUpdate cipher) (evpDecryptFinal cipher) data pieces = message := by
  induction pieces generalizing data message with
  | nil =>
      rw [Stream.decryptPieces] at h
      rw [outputs, evpDecryptFinal, h]
      rfl
  | cons src pieces ih =>
      obtain ⟨rest, hrest, rfl⟩ := Option.map_eq_some_iff.mp h
      rw [outputs, ih hrest]
      rfl

theorem begin_of_length {key : List UInt8} (hkey : key.length = 32) (iv : List UInt8) :
    begin key iv = some { key := key, stream := { chain := key.take 16, rest := [] } } := by
  have hne : key ≠ [] := by
    rintro rfl
    cases hkey
  rw [begin, if_neg hne, List.take_of_length_le (Nat.le_of_eq hkey)]

/-- EVP encrypts the whole message, but with the first half of the key as initialisation vector. -/
theorem encryptAll_output {key iv out : List UInt8} {pieces : List (List UInt8)}
    {data : AESWorkData} {buf : FCharBuffer} (hkey : key.length = 32)
    (hpieces : ∀ src ∈ pieces, src.length < 2 ^ 31) (hbegin : begin key iv = some data)
    (hall : encryptAll cipher data .new pieces = some (buf, out)) :
    out = encryptCbc (cipher.encrypt key) (key.take 16) pieces.flatten := by
  cases (begin_of_length hkey iv).symm.trans hbegin
  have hrest : ([] : List UInt8).length < 16 := by decide
  rw [all_output hpieces hall, outputs_encrypt]
  exact Stream.encryptPieces_eq (s := { chain := key.take 16, rest := [] }) hrest pieces

/-- EVP decrypts what it encrypted. -/
theorem decryptAll_output {key iv out message : List UInt8} {pieces : List (List UInt8)}
    {data : AESWorkData} {buf : FCharBuffer} (hkey : key.length = 32)
    (hpieces : ∀ src ∈ pieces, src.length < 2 ^ 31) (hbegin : begin key iv = some data)
    (hcipher : pieces.flatten = encryptCbc (cipher.encrypt key) (key.take 16) message)
    (hall : decryptAll cipher data .new pieces = some (buf, out)) : out = message := by
  cases (begin_of_length hkey iv).symm.trans hbegin
  have hiv : (key.take 16).length = 16 := by
    rw [List.length_take]
    omega
  rw [all_output hpieces hall]
  exact outputs_decrypt (decryptPieces_encryptCbc (cipher.length_encrypt key)
    (cipher.decrypt_encrypt key) hiv message hcipher)

end Utilpp.Crypto

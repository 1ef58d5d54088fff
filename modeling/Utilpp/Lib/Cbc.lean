import Mathlib.Data.List.Basic

/-!
# Cipher block chaining

A block cipher on blocks of 16 bytes in CBC mode with the padding of PKCS#7, for a message in one
piece (`encryptCbc`, `decryptCbc`) and in pieces (`Stream`). A stream keeps the bytes that do not
fill a block; one that decrypts keeps the last block too, which may be padding. The pieces of a
message give the same result as the whole, and decryption undoes encryption.
-/

namespace Utilpp.Lib.Cbc

/-- A permutation of blocks for every key. -/
structure BlockCipher where
  encrypt : List UInt8 → List UInt8 → List UInt8
  decrypt : List UInt8 → List UInt8 → List UInt8
  length_encrypt : ∀ key block, block.length = 16 → (encrypt key block).length = 16
  decrypt_encrypt : ∀ key block, block.length = 16 → decrypt key (encrypt key block) = block

/-- The exclusive or of two blocks. -/
def xorBlock (a b : List UInt8) : List UInt8 := List.zipWith (· ^^^ ·) a b

/-- The first `n` blocks of a message. -/
def blocks : Nat → List UInt8 → List (List UInt8)
  | 0, _ => []
  | n + 1, bytes => bytes.take 16 :: blocks n (bytes.drop 16)

theorem blocks_zero (bytes : List UInt8) : blocks 0 bytes = [] := rfl

theorem blocks_succ (n : Nat) (bytes : List UInt8) :
    blocks (n + 1) bytes = bytes.take 16 :: blocks n (bytes.drop 16) := rfl

/-- The padding fills the last block, and is a block of its own if that is full. -/
def pad (bytes : List UInt8) : List UInt8 :=
  let n := 16 - bytes.length % 16
  bytes ++ List.replicate n (UInt8.ofNat n)

/-- The last block without its padding. -/
def unpad (block : List UInt8) : Option (List UInt8) :=
  let n := (block.getLastD 0).toNat
  if 0 < n ∧ n ≤ 16 ∧ block.drop (16 - n) = List.replicate n (UInt8.ofNat n) then
    some (block.take (16 - n))
  else none

section

variable (f : List UInt8 → List UInt8)

/-- The blocks are encrypted one after another, each with the one before it mixed in. -/
def chainEncrypt (chain : List UInt8) : List (List UInt8) → List (List UInt8)
  | [] => []
  | block :: rest => f (xorBlock block chain) :: chainEncrypt (f (xorBlock block chain)) rest

/-- The blocks are decrypted one after another. -/
def chainDecrypt (chain : List UInt8) : List (List UInt8) → List (List UInt8)
  | [] => []
  | block :: rest => xorBlock (f block) chain :: chainDecrypt block rest

theorem chainEncrypt_cons (chain block : List UInt8) (rest : List (List UInt8)) :
    chainEncrypt f chain (block :: rest) =
      f (xorBlock block chain) :: chainEncrypt f (f (xorBlock block chain)) rest := rfl

theorem chainDecrypt_cons (chain block : List UInt8) (rest : List (List UInt8)) :
    chainDecrypt f chain (block :: rest) =
      xorBlock (f block) chain :: chainDecrypt f block rest := rfl

theorem chainEncrypt_append (chain : List UInt8) (first second : List (List UInt8)) :
    chainEncrypt f chain (first ++ second) = chainEncrypt f chain first ++
      chainEncrypt f ((chainEncrypt f chain first).getLastD chain) second := by
  induction first generalizing chain with
  | nil => rfl
  | cons block rest ih =>
      rw [List.cons_append, chainEncrypt_cons, ih, chainEncrypt_cons, List.getLastD_cons,
        List.cons_append]

theorem length_chainEncrypt (chain : List UInt8) (bs : List (List UInt8)) :
    (chainEncrypt f chain bs).length = bs.length := by
  induction bs generalizing chain with
  | nil => rfl
  | cons block rest ih => rw [chainEncrypt_cons, List.length_cons, ih, List.length_cons]

theorem length_chainDecrypt (chain : List UInt8) (bs : List (List UInt8)) :
    (chainDecrypt f chain bs).length = bs.length := by
  induction bs generalizing chain with
  | nil => rfl
  | cons block rest ih => rw [chainDecrypt_cons, List.length_cons, ih, List.length_cons]

theorem chainDecrypt_append (chain : List UInt8) (first second : List (List UInt8)) :
    chainDecrypt f chain (first ++ second) =
      chainDecrypt f chain first ++ chainDecrypt f (first.getLastD chain) second := by
  induction first generalizing chain with
  | nil => rfl
  | cons block rest ih =>
      rw [List.cons_append, chainDecrypt_cons, ih, chainDecrypt_cons, List.getLastD_cons,
        List.cons_append]

end

/-! ## Blocks of a message -/

theorem blocks_add (n m : Nat) (bytes : List UInt8) :
    blocks (n + m) bytes = blocks n bytes ++ blocks m (bytes.drop (16 * n)) := by
  induction n generalizing bytes with
  | zero => rw [Nat.zero_add, Nat.mul_zero, List.drop_zero, blocks_zero, List.nil_append]
  | succ n ih =>
      rw [Nat.add_right_comm, blocks_succ, ih, blocks_succ, List.drop_drop, List.cons_append]
      rw [show 16 + 16 * n = 16 * (n + 1) by omega]

/-- Blocks that lie in the first part of a message. -/
theorem blocks_left {n : Nat} {first : List UInt8} (h : 16 * n ≤ first.length)
    (second : List UInt8) : blocks n (first ++ second) = blocks n first := by
  induction n generalizing first with
  | zero => rfl
  | succ n ih =>
      rw [blocks_succ, blocks_succ, List.take_append_of_le_length (by omega),
        List.drop_append_of_le_length (by omega), ih (by rw [List.length_drop]; omega)]

theorem length_blocks (n : Nat) (bytes : List UInt8) : (blocks n bytes).length = n := by
  induction n generalizing bytes with
  | zero => rfl
  | succ n ih => rw [blocks_succ, List.length_cons, ih]

theorem blocks_one {bytes : List UInt8} (h : bytes.length = 16) : blocks 1 bytes = [bytes] := by
  rw [blocks_succ, blocks_zero, List.take_of_length_le (Nat.le_of_eq h)]

theorem length_flatten_of_length {bs : List (List UInt8)} (h : ∀ block ∈ bs, block.length = 16) :
    bs.flatten.length = 16 * bs.length := by
  induction bs with
  | nil => rfl
  | cons block rest ih =>
      rw [List.flatten_cons, List.length_append, h block List.mem_cons_self,
        ih fun b hb => h b (List.mem_cons_of_mem _ hb), List.length_cons]
      omega

theorem length_of_mem_blocks {n : Nat} {bytes block : List UInt8} (h : 16 * n ≤ bytes.length)
    (hmem : block ∈ blocks n bytes) : block.length = 16 := by
  induction n generalizing bytes with
  | zero => cases hmem
  | succ n ih =>
      rw [blocks_succ, List.mem_cons] at hmem
      obtain rfl | hmem := hmem
      · rw [List.length_take]
        omega
      · exact ih (by rw [List.length_drop]; omega) hmem

/-- A message of whole blocks is made of them. -/
theorem flatten_blocks {n : Nat} {bytes : List UInt8} (h : bytes.length = 16 * n) :
    (blocks n bytes).flatten = bytes := by
  induction n generalizing bytes with
  | zero => exact (List.length_eq_zero_iff.mp h).symm
  | succ n ih =>
      rw [blocks_succ, List.flatten_cons, ih (by rw [List.length_drop]; omega),
        List.take_append_drop]

/-- The blocks of a message that is made of blocks. -/
theorem blocks_flatten {bs : List (List UInt8)} (h : ∀ block ∈ bs, block.length = 16) :
    blocks bs.length bs.flatten = bs := by
  induction bs with
  | nil => rfl
  | cons block rest ih =>
      have hblock := h block List.mem_cons_self
      rw [List.length_cons, blocks_succ, List.flatten_cons, List.take_left' hblock,
        List.drop_left' hblock, ih fun b hb => h b (List.mem_cons_of_mem _ hb)]

/-- The padding depends only on what stands in the last block. -/
theorem pad_append {first : List UInt8} {n : Nat} (h : first.length = 16 * n)
    (second : List UInt8) : pad (first ++ second) = first ++ pad second := by
  have hmod : (first ++ second).length % 16 = second.length % 16 := by
    rw [List.length_append, h]
    omega
  rw [pad, pad, hmod, List.append_assoc]

theorem length_pad (bytes : List UInt8) : (pad bytes).length = 16 * (bytes.length / 16 + 1) := by
  rw [pad, List.length_append, List.length_replicate]
  omega

theorem unpad_pad {rest : List UInt8} (h : rest.length < 16) : unpad (pad rest) = some rest := by
  have hmod : rest.length % 16 = rest.length := Nat.mod_eq_of_lt h
  have hpos : 0 < 16 - rest.length := by omega
  have hle : 16 - rest.length < 256 := by omega
  have hlast : ((pad rest).getLastD 0).toNat = 16 - rest.length := by
    rw [pad, hmod, List.getLastD_eq_getLast?, List.getLast?_append, List.getLast?_replicate,
      if_neg (by omega), Option.some_or, Option.getD_some, UInt8.toNat_ofNat_of_lt' hle]
  have hback : 16 - (16 - rest.length) = rest.length := by omega
  have hdrop : (pad rest).drop rest.length =
      List.replicate (16 - rest.length) (UInt8.ofNat (16 - rest.length)) := by
    rw [pad, hmod, List.drop_left]
  rw [unpad, hlast, hback, if_pos ⟨hpos, Nat.sub_le .., hdrop⟩, pad, List.take_left]

/-! ## Messages in pieces -/

/-- The message in one piece, encrypted. -/
def encryptCbc (f : List UInt8 → List UInt8) (iv message : List UInt8) : List UInt8 :=
  (chainEncrypt f iv (blocks (message.length / 16 + 1) (pad message))).flatten

/-- What is kept between two pieces: the last block of the ciphertext and the bytes that are not
processed yet. -/
structure Stream where
  chain : List UInt8
  rest : List UInt8
  deriving DecidableEq, Repr

namespace Stream

variable (f g : List UInt8 → List UInt8)

/-- The whole blocks of what there is are encrypted. -/
def encrypt (s : Stream) (src : List UInt8) : Stream × List UInt8 :=
  let data := s.rest ++ src
  let n := data.length / 16
  let out := chainEncrypt f s.chain (blocks n data)
  ({ chain := out.getLastD s.chain, rest := data.drop (16 * n) }, out.flatten)

/-- The last block, with the padding. -/
def encryptFinal (s : Stream) : List UInt8 :=
  (chainEncrypt f s.chain (blocks 1 (pad s.rest))).flatten

/-- The whole blocks of what there is are decrypted, up to the last one. -/
def decrypt (s : Stream) (src : List UInt8) : Stream × List UInt8 :=
  let data := s.rest ++ src
  let n := (data.length - 1) / 16
  ({ chain := (blocks n data).getLastD s.chain, rest := data.drop (16 * n) },
    (chainDecrypt f s.chain (blocks n data)).flatten)

/-- The last block, without the padding. -/
def decryptFinal (s : Stream) : Option (List UInt8) :=
  if s.rest.length = 16 then unpad (xorBlock (f s.rest) s.chain) else none

/-- All that comes out for the pieces of a message. -/
def encryptPieces (s : Stream) : List (List UInt8) → List UInt8
  | [] => s.encryptFinal f
  | src :: pieces => (s.encrypt f src).2 ++ encryptPieces (s.encrypt f src).1 pieces

/-- All that comes out for the pieces of a ciphertext. -/
def decryptPieces (s : Stream) : List (List UInt8) → Option (List UInt8)
  | [] => s.decryptFinal f
  | src :: pieces =>
      (decryptPieces (s.decrypt f src).1 pieces).map ((s.decrypt f src).2 ++ ·)

variable {f g}

/-- The pieces of a message are encrypted as the whole is. -/
theorem encryptPieces_eq {s : Stream} (h : s.rest.length < 16) (pieces : List (List UInt8)) :
    s.encryptPieces f pieces = encryptCbc f s.chain (s.rest ++ pieces.flatten) := by
  induction pieces generalizing s with
  | nil =>
      rw [List.flatten_nil, List.append_nil, encryptCbc, Nat.div_eq_of_lt h]
      rfl
  | cons src pieces ih =>
      rw [encryptPieces, ih (by simp only [encrypt, List.length_drop]; omega)]
      simp only [encrypt, encryptCbc, List.flatten_cons, ← List.append_assoc]
      generalize s.rest ++ src = data
      generalize hn : data.length / 16 = n
      -- the blocks of this piece come before those of the rest
      have hsplit : data ++ pieces.flatten =
          data.take (16 * n) ++ (data.drop (16 * n) ++ pieces.flatten) := by
        rw [← List.append_assoc, List.take_append_drop]
      have htake : (data.take (16 * n)).length = 16 * n := by
        rw [List.length_take]
        omega
      have hcount : (data ++ pieces.flatten).length / 16 + 1 =
          n + ((data.drop (16 * n) ++ pieces.flatten).length / 16 + 1) := by
        simp only [List.length_append, List.length_drop]
        omega
      have hblocks : blocks n (data.take (16 * n)) = blocks n data := by
        have hleft := blocks_left (Nat.le_of_eq htake.symm) (data.drop (16 * n))
        rw [List.take_append_drop] at hleft
        exact hleft.symm
      rw [hcount, hsplit]
      generalize data.drop (16 * n) ++ pieces.flatten = more
      rw [pad_append htake, blocks_add n, blocks_left (Nat.le_of_eq htake.symm),
        List.drop_left' htake, chainEncrypt_append, List.flatten_append, hblocks]

/-- The pieces of a ciphertext are decrypted as the whole is. -/
theorem decryptPieces_eq {s : Stream} (h : s.rest.length ≤ 16) {pieces : List (List UInt8)}
    {m : Nat} {total : List UInt8} (htotal : s.rest ++ pieces.flatten = total)
    (hlength : total.length = 16 * (m + 1)) :
    s.decryptPieces f pieces =
      (unpad (xorBlock (f (total.drop (16 * m))) ((blocks m total).getLastD s.chain))).map
        ((chainDecrypt f s.chain (blocks m total)).flatten ++ ·) := by
  induction pieces generalizing s m total with
  | nil =>
      rw [List.flatten_nil, List.append_nil] at htotal
      subst htotal
      obtain rfl : m = 0 := by omega
      rw [decryptPieces, decryptFinal, if_pos hlength, Nat.mul_zero, List.drop_zero]
      exact Option.map_id'.symm
  | cons src pieces ih =>
      rw [List.flatten_cons, ← List.append_assoc] at htotal
      simp only [decryptPieces, decrypt]
      generalize s.rest ++ src = data at htotal ⊢
      generalize hn : (data.length - 1) / 16 = n
      have hdata : data.length ≤ total.length := by
        rw [← htotal, List.length_append]
        omega
      obtain ⟨k, rfl⟩ : ∃ k, m = n + k := Nat.exists_eq_add_of_le (by omega)
      have hrest : data.drop (16 * n) ++ pieces.flatten = total.drop (16 * n) := by
        rw [← htotal, List.drop_append_of_le_length (by omega)]
      have hblocks : blocks n data = blocks n total := by
        rw [← htotal, blocks_left (by omega)]
      have hlast : ∀ chain, (blocks (n + k) total).getLastD chain =
          (blocks k (total.drop (16 * n))).getLastD ((blocks n total).getLastD chain) := by
        intro chain
        rw [blocks_add]
        simp only [List.getLastD_eq_getLast?, List.getLast?_append]
        cases (blocks k (total.drop (16 * n))).getLast? <;> simp
      rw [ih (s := { chain := (blocks n data).getLastD s.chain, rest := data.drop (16 * n) })
        (by simp only [List.length_drop]; omega) hrest (m := k)
        (by rw [List.length_drop]; omega)]
      rw [hblocks, hlast, blocks_add, chainDecrypt_append, List.flatten_append, List.drop_drop,
        ← Nat.mul_add, Option.map_map]
      simp only [Function.comp_def, List.append_assoc]

end Stream

/-! ## Decryption undoes encryption -/

theorem xorBlock_cancel {block chain : List UInt8} (h : block.length ≤ chain.length) :
    xorBlock (xorBlock block chain) chain = block := by
  induction block generalizing chain with
  | nil => rfl
  | cons a block ih =>
      cases chain with
      | nil => exact absurd h (by simp)
      | cons b chain =>
          have hrest := ih (Nat.le_of_succ_le_succ h)
          simp only [xorBlock, List.zipWith_cons_cons, UInt8.xor_assoc, UInt8.xor_self,
            UInt8.xor_zero] at hrest ⊢
          rw [hrest]

theorem length_xorBlock {block chain : List UInt8} (h : block.length = 16)
    (hchain : chain.length = 16) : (xorBlock block chain).length = 16 := by
  rw [xorBlock, List.length_zipWith, h, hchain]
  rfl

section

variable {f g : List UInt8 → List UInt8} (hf : ∀ block, block.length = 16 → (f block).length = 16)
  (hg : ∀ block, block.length = 16 → g (f block) = block)
include hf

theorem length_of_mem_chainEncrypt {chain : List UInt8} {bs : List (List UInt8)}
    (hchain : chain.length = 16) (h : ∀ block ∈ bs, block.length = 16) :
    ∀ block ∈ chainEncrypt f chain bs, block.length = 16 := by
  induction bs generalizing chain with
  | nil => exact fun _ hmem => nomatch hmem
  | cons b bs ih =>
      have hhead := hf _ (length_xorBlock (h b List.mem_cons_self) hchain)
      intro block hmem
      rw [chainEncrypt_cons, List.mem_cons] at hmem
      obtain rfl | hmem := hmem
      · exact hhead
      · exact ih hhead (fun b' hb' => h b' (List.mem_cons_of_mem _ hb')) block hmem

include hg

theorem chainDecrypt_chainEncrypt {chain : List UInt8} {bs : List (List UInt8)}
    (hchain : chain.length = 16) (h : ∀ block ∈ bs, block.length = 16) :
    chainDecrypt g chain (chainEncrypt f chain bs) = bs := by
  induction bs generalizing chain with
  | nil => rfl
  | cons b bs ih =>
      have hb := h b List.mem_cons_self
      have hxor := length_xorBlock hb hchain
      rw [chainEncrypt_cons, chainDecrypt_cons,
        ih (hf _ hxor) fun b' hb' => h b' (List.mem_cons_of_mem _ hb'),
        hg _ hxor, xorBlock_cancel (by omega)]

/-- A ciphertext in pieces gives back the message. -/
theorem decryptPieces_encryptCbc {iv : List UInt8} (hiv : iv.length = 16) (message : List UInt8)
    {pieces : List (List UInt8)} (hpieces : pieces.flatten = encryptCbc f iv message) :
    Stream.decryptPieces g { chain := iv, rest := [] } pieces = some message := by
  generalize hk : message.length / 16 = k
  have hpad : (pad message).length = 16 * (k + 1) := by rw [length_pad, hk]
  have hplain : ∀ block ∈ blocks (k + 1) (pad message), block.length = 16 :=
    fun _ hmem => length_of_mem_blocks (Nat.le_of_eq hpad.symm) hmem
  have hcipher := length_of_mem_chainEncrypt hf hiv hplain
  have hundone := chainDecrypt_chainEncrypt hf hg hiv hplain
  have hcount := length_chainEncrypt f iv (blocks (k + 1) (pad message))
  rw [encryptCbc, hk] at hpieces
  rw [length_blocks] at hcount
  generalize chainEncrypt f iv (blocks (k + 1) (pad message)) = cipher at *
  have hlength : cipher.flatten.length = 16 * (k + 1) := by
    rw [length_flatten_of_length hcipher, hcount]
  have hsame : blocks (k + 1) cipher.flatten = cipher := hcount ▸ blocks_flatten hcipher
  rw [← hsame, blocks_add, chainDecrypt_append, blocks_add] at hundone
  generalize cipher.flatten = total at *
  -- the blocks before the last one, and the last one
  obtain ⟨hfront, hlast⟩ := List.append_inj hundone (by rw [length_chainDecrypt, length_blocks,
    length_blocks])
  rw [blocks_one (by rw [List.length_drop]; omega), blocks_one (by rw [List.length_drop]; omega),
    chainDecrypt, chainDecrypt, List.cons.injEq] at hlast
  have htake : (message.take (16 * k)).length = 16 * k := by
    rw [List.length_take]
    omega
  have hsplit : pad message = message.take (16 * k) ++ pad (message.drop (16 * k)) := by
    rw [← pad_append htake, List.take_append_drop]
  rw [Stream.decryptPieces_eq (Nat.zero_le _) (by rw [List.nil_append, hpieces]) hlength, hfront,
    hlast.1, hsplit, List.drop_left' htake, unpad_pad (by rw [List.length_drop]; omega),
    blocks_left (Nat.le_of_eq htake.symm), flatten_blocks htake, Option.map_some,
    List.take_append_drop]

end

end Utilpp.Lib.Cbc

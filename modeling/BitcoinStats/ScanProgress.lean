-- The scan makes progress: no place of a file is read as a header twice, and so
-- the scan ends.
import BitcoinStats.ScanOrder

open byte_memory keyed_set bitcoinstats.bitcoin_address

namespace bitcoinstats.block_chain

/-! ## The headers of a run -/

variable (H : Hashes)

/-- The header that the call `n` of `scanBlockChain` reads, if it reads one. -/
def headerOf (s : UInt32 × BlockChainImpl) (n : Nat) : Option BlockHeader :=
  let r := (afterScans H s n).2.readBlockHeader H
  if r.1 then some r.2.mLastBlockHeader else none

/-- Where the record of a header starts: its magic number and its length lie in
front of its data. -/
def recordStart (header : BlockHeader) : Nat := header.mFileOffset.toNat - 8

/-- The files on the disk are so short that no 32 bit position wraps. -/
def DiskShort (b : BlockChainImpl) : Prop :=
  ∀ i bytes, b.disk i = some bytes → bytes.length < 2 ^ 32 - 2 ^ 26

/-! ## Files that only go forward -/

/-- The position is no more than one block behind the end. -/
structure File.Short (f : File) : Prop where
  length_lt : f.bytes.length < 2 ^ 32 - 2 ^ 26
  position_le : f.position ≤ f.bytes.length + 2 ^ 25

/-- The disk and the open files are short. -/
structure AllShort (b : BlockChainImpl) : Prop where
  disk : DiskShort b
  files : ∀ (k : Nat) (f : File), b.mBlockDataFiles[k]? = some f → f.Short

/-- The open files stay open, and none is further back than before. -/
structure Forward (b b' : BlockChainImpl) : Prop where
  disk : b'.disk = b.disk
  files : ∀ (k : Nat) (f : File), b.mBlockDataFiles[k]? = some f →
    ∃ f' : File, b'.mBlockDataFiles[k]? = some f' ∧ f'.bytes = f.bytes ∧ f.position ≤ f'.position

/-- The position `q` is not in front of where the file `fph` stands, if it is open. -/
def NotBefore (b : BlockChainImpl) (fph q : Nat) : Prop :=
  ∀ f : File, b.mBlockDataFiles[fph]? = some f → f.position ≤ q

variable {H} {b b' b'' : BlockChainImpl} {fph q : Nat}

theorem Forward.refl (b : BlockChainImpl) : Forward b b :=
  ⟨rfl, fun _ f hf => ⟨f, hf, rfl, le_refl _⟩⟩

theorem Forward.trans (h : Forward b b') (h' : Forward b' b'') : Forward b b'' where
  disk := h'.disk.trans h.disk
  files := by
    intro k f hf
    obtain ⟨f', hf', hbytes, hle⟩ := h.files k f hf
    obtain ⟨f'', hf'', hbytes', hle'⟩ := h'.files k f' hf'
    exact ⟨f'', hf'', hbytes'.trans hbytes, hle.trans hle'⟩

theorem file_of_getElem? {f : File} (h : b.mBlockDataFiles[fph]? = some f) : b.file fph = f := by
  rw [BlockChainImpl.file, List.getD_eq_getElem?_getD, h]
  rfl

/-- A file that is not open is empty, so whatever has bytes is open. -/
theorem getElem?_file (h : 0 < (b.file fph).bytes.length) :
    b.mBlockDataFiles[fph]? = some (b.file fph) := by
  rw [BlockChainImpl.file, List.getD_eq_getElem?_getD] at h ⊢
  cases hf : b.mBlockDataFiles[fph]? with
  | some f => rfl
  | none =>
    rw [hf] at h
    exact absurd h (Nat.lt_irrefl 0)

theorem Forward.notBefore (h : Forward b b') (hq : NotBefore b' fph q) : NotBefore b fph q := by
  intro f hf
  obtain ⟨f', hf', -, hle⟩ := h.files fph f hf
  exact hle.trans (hq f' hf')

theorem notBefore_self (b : BlockChainImpl) (fph : Nat) :
    NotBefore b fph (b.file fph).position := by
  intro f hf
  rw [file_of_getElem? hf]

theorem NotBefore.mono {q' : Nat} (h : NotBefore b fph q) (hle : q ≤ q') : NotBefore b fph q' :=
  fun f hf => (h f hf).trans hle

/-- A file may be put anywhere behind its first place, also back from its last one. -/
theorem Forward.setFile (h : Forward b b') (hq : NotBefore b fph q) :
    Forward b (b'.setFile fph { (b'.file fph) with position := q }) where
  disk := h.disk
  files := by
    intro k f hf
    obtain ⟨f', hf', hbytes, hle⟩ := h.files k f hf
    by_cases hk : fph = k
    · subst hk
      have hlt : fph < b'.mBlockDataFiles.length := (List.getElem?_eq_some_iff.mp hf').1
      refine ⟨{ (b'.file fph) with position := q }, ?_, ?_, hq f hf⟩
      · simp [BlockChainImpl.setFile, hlt]
      · rw [file_of_getElem? hf']
        exact hbytes
    · refine ⟨f', ?_, hbytes, hle⟩
      simpa [BlockChainImpl.setFile, hk] using hf'

theorem AllShort.setFile (h : AllShort b) (hq : q ≤ (b.file fph).bytes.length + 2 ^ 25) :
    AllShort (b.setFile fph { (b.file fph) with position := q }) where
  disk := h.disk
  files := by
    intro k f hf
    rw [BlockChainImpl.setFile, List.getElem?_set] at hf
    split at hf
    · rename_i hk
      split at hf
      · rename_i hlt
        have hopen : b.mBlockDataFiles[fph]? = some b.mBlockDataFiles[fph] :=
          List.getElem?_eq_getElem hlt
        obtain rfl := Option.some.inj hf
        have hshort := (h.files fph _ hopen).length_lt
        rw [← file_of_getElem? hopen] at hshort
        exact ⟨hshort, hq⟩
      · cases hf
    · exact h.files k f hf

/-! ## The operations on files -/

theorem AllShort.short (h : AllShort b) (fph : Nat) : (b.file fph).Short := by
  rw [BlockChainImpl.file, List.getD_eq_getElem?_getD]
  cases hf : b.mBlockDataFiles[fph]? with
  | some f => exact h.files fph f hf
  | none => exact ⟨by decide, by decide⟩

theorem length_chunk_le (f : File) (n : Nat) :
    (f.chunk n).length ≤ n ∧ (f.chunk n).length ≤ f.bytes.length - f.position := by
  simp [File.chunk]

/-- `fread` moves a file forward by what it reads. -/
theorem fread_eq (b : BlockChainImpl) (fph n : Nat) : (b.fread fph n).2 = b.setFile fph
    { (b.file fph) with position := (b.file fph).position + ((b.file fph).chunk n).length } := rfl

theorem Forward.fread (h : Forward b b') (fph n : Nat) : Forward b (b'.fread fph n).2 := by
  rw [fread_eq]
  exact h.setFile ((h.notBefore (notBefore_self b' fph)).mono (Nat.le_add_right _ _))

theorem AllShort.fread (h : AllShort b) (fph n : Nat) : AllShort (b.fread fph n).2 := by
  have hshort := h.short fph
  have hchunk := length_chunk_le (b.file fph) n
  have hpos := hshort.position_le
  rw [fread_eq]
  exact h.setFile (by omega)

theorem Forward.freadU32 (h : Forward b b') (fph : Nat) : Forward b (b'.freadU32 fph).2 :=
  h.fread fph 4

theorem AllShort.freadU32 (h : AllShort b) (fph : Nat) : AllShort (b.freadU32 fph).2 :=
  h.fread fph 4

theorem Forward.openBlock (h : Forward b b') : Forward b b'.openBlock.2 := by
  unfold BlockChainImpl.openBlock
  simp only
  split
  · rename_i bytes hdisk
    refine ⟨h.disk, ?_⟩
    intro k f hf
    obtain ⟨f', hf', hrest⟩ := h.files k f hf
    refine ⟨f', ?_, hrest⟩
    rw [List.getElem?_append_left (List.getElem?_eq_some_iff.mp hf').1]
    exact hf'
  · exact ⟨h.disk, h.files⟩

theorem AllShort.openBlock (h : AllShort b) : AllShort b.openBlock.2 := by
  unfold BlockChainImpl.openBlock
  simp only
  split
  · rename_i bytes hdisk
    refine ⟨h.disk, ?_⟩
    intro k f hf
    rcases Nat.lt_or_ge k b.mBlockDataFiles.length with hk | hk
    · rw [List.getElem?_append_left hk] at hf
      exact h.files k f hf
    · rw [List.getElem?_append_right hk] at hf
      obtain rfl := List.mem_singleton.mp (List.mem_of_getElem? hf)
      exact ⟨h.disk _ _ hdisk, Nat.zero_le _⟩
  · exact ⟨h.disk, h.files⟩

/-- A number is read from an open file, with its four bytes in front of the end. -/
theorem freadU32_isSome (h : (b.freadU32 fph).1.isSome) : ∃ bytes p, b.Open fph bytes p ∧
    p + 4 ≤ bytes.length ∧ (b.freadU32 fph).2 = b.setFile fph { bytes, position := p + 4 } := by
  have hfour : ((b.file fph).chunk 4).length = 4 := by
    by_contra hne
    simp [BlockChainImpl.freadU32, BlockChainImpl.fread, hne] at h
  have hchunk := length_chunk_le (b.file fph) 4
  refine ⟨(b.file fph).bytes, (b.file fph).position, getElem?_file (by omega), by omega, ?_⟩
  have hread := fread_eq b fph 4
  rw [hfour] at hread
  exact hread

/-! ## One read -/

/-- The four bytes at `start` of the file `fph`, which is the one that is scanned,
were read last, and they are not in front of where that file stood before. -/
structure MagicAt (b b' : BlockChainImpl) (fph start : Nat) : Prop where
  forward : Forward b b'
  short : AllShort b'
  index : b'.mBlockIndex.toNat = fph
  isOpen : ∃ bytes, b'.Open fph bytes (start + 4) ∧ start + 4 ≤ bytes.length
  notBefore : NotBefore b fph start

/-- A number that is read where the file stands. -/
theorem magicAt_freadU32 (h : Forward b b') (hs : AllShort b') (hindex : b'.mBlockIndex.toNat = fph)
    (hread : (b'.freadU32 fph).1.isSome) :
    MagicAt b (b'.freadU32 fph).2 fph (b'.file fph).position := by
  obtain ⟨bytes, p, hopen, hle, heq⟩ := freadU32_isSome hread
  refine ⟨h.freadU32 fph, hs.freadU32 fph, hindex, ⟨bytes, ?_⟩, ?_⟩
  · rw [heq, hopen.file_eq]
    exact ⟨open_setFile hopen _, hle⟩
  · exact h.notBefore (notBefore_self b' fph)

theorem AllShort.ftell (h : AllShort b) (fph : Nat) :
    (b.file fph).ftell.toNat = (b.file fph).position := by
  have hshort := h.short fph
  have hlen := hshort.length_lt
  have hpos := hshort.position_le
  rw [File.ftell, UInt32.toNat_ofNat_of_lt' (by rw [UInt32.size]; omega)]

/-- What the read of a magic number does. -/
structure MagicResult (b : BlockChainImpl) (m : MagicRead) (b' : BlockChainImpl) : Prop where
  forward : Forward b b'
  short : AllShort b'
  found : m.magicID.isSome → ∃ start, MagicAt b b' m.fph start ∧
    NotBefore b m.fph m.lastBlockRead.toNat ∧ m.lastBlockRead.toNat ≤ start + 4

theorem readMagic_result (h : AllShort b) : MagicResult b b.readMagic.1 b.readMagic.2 := by
  unfold BlockChainImpl.readMagic
  have hread := (Forward.refl b).freadU32 b.mBlockIndex.toNat
  have hshort := h.freadU32 b.mBlockIndex.toNat
  simp only
  split
  · rename_i hsome
    refine ⟨hread, hshort, fun _ => ⟨_, magicAt_freadU32 (Forward.refl b) h rfl hsome, ?_, ?_⟩⟩
    · rw [h.ftell]
      exact notBefore_self b _
    · rw [h.ftell]
      exact Nat.le_add_right _ _
  · split
    · have hopened := hread.openBlock
      have hopenedShort := hshort.openBlock
      refine ⟨hopened.freadU32 _, hopenedShort.freadU32 _, ?_⟩
      intro hsome
      have hmagic := magicAt_freadU32 hopened hopenedShort rfl hsome
      obtain ⟨bytes, hopen, -⟩ := hmagic.isOpen
      refine ⟨_, hmagic, ?_, ?_⟩
      · rw [hmagic.short.ftell, hopen.file_eq]
        exact hmagic.notBefore.mono (Nat.le_add_right _ _)
      · rw [hmagic.short.ftell, hopen.file_eq]
    · exact ⟨hread.openBlock, hshort.openBlock, fun hsome => by cases hsome⟩

theorem Forward.fseek (h : Forward b b') (hq : NotBefore b fph q) : Forward b (b'.fseek fph q) :=
  h.setFile hq

theorem AllShort.fseek (h : AllShort b) (hq : q ≤ (b.file fph).bytes.length + 2 ^ 25) :
    AllShort (b.fseek fph q) := h.setFile hq

theorem searchMagic_lt {temp : Memory} {c i : Nat} (h : searchMagic temp c = some i) : i < c :=
  List.mem_range.mp (List.mem_of_find?_eq_some h)

/-- The search starts where the file stood or behind it, and goes forward. -/
theorem skipToMagic_result {start : Nat} {lastBlockRead : UInt32} (hm : MagicAt b b' fph start)
    (hlast : NotBefore b fph lastBlockRead.toNat) (hle : lastBlockRead.toNat ≤ start + 4) :
    Forward b (b'.skipToMagic fph lastBlockRead).2.2 ∧
    AllShort (b'.skipToMagic fph lastBlockRead).2.2 ∧
    ((b'.skipToMagic fph lastBlockRead).2.1 = true →
      ∃ start', MagicAt b (b'.skipToMagic fph lastBlockRead).2.2
        (b'.skipToMagic fph lastBlockRead).1 start') := by
  obtain ⟨bytes, hopen, hend⟩ := hm.isOpen
  have hlength : bytes.length < 2 ^ 32 - 2 ^ 26 := (hm.short.files fph _ hopen).length_lt
  unfold BlockChainImpl.skipToMagic
  obtain ⟨b1, hb1⟩ : ∃ b1, b1 = b'.fseek fph lastBlockRead.toNat := ⟨_, rfl⟩
  have hforward : Forward b b1 := hb1 ▸ hm.forward.fseek hlast
  have hshort : AllShort b1 := by
    rw [hb1]
    exact hm.short.fseek (by rw [hopen.file_eq]; simp only; omega)
  have hopen1 : b1.Open fph bytes lastBlockRead.toNat := by
    rw [hb1, BlockChainImpl.fseek, hopen.file_eq]
    exact open_setFile hopen _
  have hindex : b1.mBlockIndex.toNat = fph := by
    rw [hb1]
    exact hm.index
  rw [← hb1]
  have hread := hforward.fread fph MAX_BLOCK_SIZE.toNat
  have hreadShort := hshort.fread fph MAX_BLOCK_SIZE.toNat
  have hchunk := length_chunk_le (b1.file fph) MAX_BLOCK_SIZE.toNat
  have hopen2 : (b1.fread fph MAX_BLOCK_SIZE.toNat).2.Open fph bytes
      (lastBlockRead.toNat + ((b1.file fph).chunk MAX_BLOCK_SIZE.toNat).length) := by
    rw [fread_eq, hopen1.file_eq]
    exact open_setFile hopen1 _
  simp only [hopen1.file_eq] at hchunk
  simp only
  split
  · rename_i i hi
    have hlt := searchMagic_lt hi
    have hfile : (b1.fread fph MAX_BLOCK_SIZE.toNat).1 =
        (b1.file fph).chunk MAX_BLOCK_SIZE.toNat := rfl
    rw [hfile, hopen1.file_eq] at hlt
    have hadd : (lastBlockRead + UInt32.ofNat i).toNat = lastBlockRead.toNat + i := by
      rw [UInt32.toNat_add, UInt32.toNat_ofNat_of_lt' (by rw [UInt32.size]; omega)]
      omega
    rw [hadd]
    have hseek := hread.fseek (hlast.mono (Nat.le_add_right _ i))
    have hseekShort : AllShort ((b1.fread fph MAX_BLOCK_SIZE.toNat).2.fseek fph
        (lastBlockRead.toNat + i)) :=
      hreadShort.fseek (by rw [hopen2.file_eq]; simp only; omega)
    exact ⟨hseek.freadU32 _, hseekShort.freadU32 _,
      fun hsome => ⟨_, magicAt_freadU32 hseek hseekShort hindex hsome⟩⟩
  · split
    · have hopened := hread.openBlock
      have hopenedShort := hreadShort.openBlock
      refine ⟨hopened.freadU32 _, hopenedShort.freadU32 _, ?_⟩
      intro hmagic
      refine ⟨_, magicAt_freadU32 hopened hopenedShort rfl ?_⟩
      rw [of_decide_eq_true hmagic]
      rfl
    · exact ⟨hread.openBlock, hreadShort.openBlock, fun hfalse => by cases hfalse⟩

/-- The header of the record at `start` was read, which is not in front of where
its file stood before, and its file now stands at least eight bytes behind it. -/
structure HeaderAt (b b' : BlockChainImpl) (start : Nat) : Prop where
  offset : b'.mLastBlockHeader.mFileOffset.toNat = start + 8
  notBefore : NotBefore b b'.mLastBlockHeader.mFileIndex.toNat start
  behind : ∃ f : File, b'.mBlockDataFiles[b'.mLastBlockHeader.mFileIndex.toNat]? = some f ∧
    start + 8 ≤ f.position

/-- A read moves the files forward only, and so does a header that it reads. -/
structure ReadForward (b : BlockChainImpl) (r : Bool × BlockChainImpl) : Prop where
  forward : Forward b r.2
  short : AllShort r.2
  header : r.1 = true → ∃ start, HeaderAt b r.2 start

theorem readForward_false (h : Forward b b') (hs : AllShort b') : ReadForward b (false, b') :=
  ⟨h, hs, fun hfalse => by cases hfalse⟩

/-- The position behind a block: the 32 bit sum of the code does not wrap, though
the difference in it does when the length is less than 80. -/
theorem toNat_seek {start : Nat} {mBlockLength : UInt32} (hstart : start + 80 < 2 ^ 32 - 2 ^ 26)
    (hlength : mBlockLength < MAX_BLOCK_SIZE) :
    (UInt32.ofNat (start + 80) + (mBlockLength - 80)).toNat = start + mBlockLength.toNat := by
  have hmax : mBlockLength.toNat < 33554432 := hlength
  rw [UInt32.toNat_add, UInt32.toNat_sub, UInt32.toNat_ofNat_of_lt' (by rw [UInt32.size]; omega),
    show (80 : UInt32).toNat = 80 from rfl]
  omega

/-- Behind a magic number the header is read, and the file goes on behind it,
whatever the length says. -/
theorem readHeader_result {start : Nat} (hm : MagicAt b b' fph start) :
    ReadForward b (b'.readHeader H fph) := by
  unfold BlockChainImpl.readHeader
  obtain ⟨b1, hb1⟩ : ∃ b1, b1 = (b'.freadU32 fph).2 := ⟨_, rfl⟩
  have hforward : Forward b b1 := hb1 ▸ hm.forward.freadU32 fph
  have hshort : AllShort b1 := hb1 ▸ hm.short.freadU32 fph
  have hindex : b1.mBlockIndex.toNat = fph := by
    rw [hb1]
    exact hm.index
  simp only [← hb1]
  split
  · exact readForward_false hforward hshort
  · rename_i mBlockLength hlength
    split
    · rename_i hlt
      split
      · rename_i hprefix
        have hsome : (b'.freadU32 fph).1.isSome := by
          rw [hlength]
          rfl
        obtain ⟨bytes, hopen, hend⟩ := hm.isOpen
        -- the length was read at `start + 4`, and the 80 bytes behind it
        have hopen1 : b1.Open fph bytes (start + 8) := by
          obtain ⟨bytes1, p, hopen', -, heq⟩ := freadU32_isSome hsome
          obtain ⟨rfl, rfl⟩ := File.mk.inj (Option.some.inj (hopen'.symm.trans hopen))
          rw [hb1, heq]
          exact open_setFile hopen _
        have hbytes : bytes.length < 2 ^ 32 - 2 ^ 26 := (hshort.files fph _ hopen1).length_lt
        have hprefix80 : ((b1.file fph).chunk 80).length = 80 := hprefix
        have hfits := (length_chunk_le (b1.file fph) 80).2
        rw [hprefix80, hopen1.file_eq] at hfits
        simp only at hfits
        obtain ⟨b2, hb2⟩ : ∃ b2, b2 = (b1.fread fph 80).2 := ⟨_, rfl⟩
        have hopen2 : b2.Open fph bytes (start + 8 + 80) := by
          rw [hb2, fread_eq, hprefix80, hopen1.file_eq]
          exact open_setFile hopen1 _
        have hindex2 : b2.mBlockIndex.toNat = fph := by
          rw [hb2]
          exact hindex
        have hmax : mBlockLength.toNat < 33554432 := hlt
        have hread : Forward b b2 := hb2 ▸ hforward.fread fph 80
        have hreadShort : AllShort b2 := hb2 ▸ hshort.fread fph 80
        simp only [← hb2]
        rw [hopen2.file_eq, File.ftell, toNat_seek (by omega) hlt]
        have hsought := hread.fseek (hm.notBefore.mono (by omega : start ≤
          start + 8 + mBlockLength.toNat))
        have hsoughtShort : AllShort (b2.fseek fph (start + 8 + mBlockLength.toNat)) :=
          hreadShort.fseek (by rw [hopen2.file_eq]; simp only; omega)
        refine ⟨⟨hsought.disk, hsought.files⟩, ⟨hsoughtShort.disk, hsoughtShort.files⟩,
          fun _ => ⟨start, ?_, ?_, { bytes, position := start + 8 + mBlockLength.toNat }, ?_,
            Nat.le_add_right _ _⟩⟩
        · simp only [prefixHeader]
          rw [hshort.ftell, hopen1.file_eq]
        · simp only [prefixHeader, hindex2]
          exact hm.notBefore
        · simp only [prefixHeader, hindex2, BlockChainImpl.fseek, hopen2.file_eq]
          exact open_setFile hopen2 _
      · exact readForward_false (hforward.fread fph 80) (hshort.fread fph 80)
    · exact readForward_false hforward hshort

theorem readBlockHeader_result (h : AllShort b) : ReadForward b (b.readBlockHeader H) := by
  unfold BlockChainImpl.readBlockHeader
  have hmagic := readMagic_result h
  rcases hr : b.readMagic with ⟨m, b1⟩
  rw [hr] at hmagic
  simp only at hmagic
  split
  · simp only
    split
    · exact readForward_false hmagic.forward hmagic.short
    · rename_i magicID hsome
      obtain ⟨start, hat, hlast, hle⟩ := hmagic.found (by rw [hsome]; rfl)
      have hskip := skipToMagic_result hat hlast hle
      rcases hs : b1.skipToMagic m.fph m.lastBlockRead with ⟨fph', found, b2⟩
      rw [hs] at hskip
      obtain ⟨hforward, hshort, hfound⟩ := hskip
      split
      · simp only
        split
        · rename_i htrue
          obtain ⟨start', hat'⟩ := hfound htrue
          exact readHeader_result hat'
        · exact readForward_false hforward hshort
      · exact readHeader_result hat
  · exact readForward_false (.refl b) h

/-! ## Any number of calls -/

theorem scanBlockChain_forward (b : BlockChainImpl) (lastBlockRead : UInt32) :
    Forward (b.readBlockHeader H).2 (b.scanBlockChain H lastBlockRead).2.2 := by
  unfold BlockChainImpl.scanBlockChain
  simp only
  split
  · exact ⟨rfl, fun _ f hf => ⟨f, hf, rfl, le_refl _⟩⟩
  · exact .refl _

theorem AllShort.scanBlockChain (h : AllShort b) (lastBlockRead : UInt32) :
    AllShort (b.scanBlockChain H lastBlockRead).2.2 := by
  have hread := (readBlockHeader_result (H := H) h).short
  unfold BlockChainImpl.scanBlockChain
  simp only
  split
  · exact ⟨hread.disk, hread.files⟩
  · exact hread

variable {s : UInt32 × BlockChainImpl}

theorem AllShort.afterScans (h : AllShort s.2) (n : Nat) : AllShort (afterScans H s n).2 := by
  induction n with
  | zero => exact h
  | succ n ih => exact ih.scanBlockChain _

theorem forward_call (h : AllShort s.2) (n : Nat) :
    Forward (afterScans H s n).2 (afterScans H s (n + 1)).2 :=
  (readBlockHeader_result (h.afterScans n)).forward.trans (scanBlockChain_forward _ _)

theorem forward_afterScans (h : AllShort s.2) {n m : Nat} (hle : n ≤ m) :
    Forward (afterScans H s n).2 (afterScans H s m).2 := by
  induction m, hle using Nat.le_induction with
  | base => exact .refl _
  | succ m _ ih => exact ih.trans (forward_call h m)

theorem headerOf_some {n : Nat} {header : BlockHeader} (h : headerOf H s n = some header) :
    ((afterScans H s n).2.readBlockHeader H).1 = true ∧
    ((afterScans H s n).2.readBlockHeader H).2.mLastBlockHeader = header := by
  unfold headerOf at h
  simp only at h
  split at h
  · rename_i htrue
    exact ⟨htrue, Option.some.inj h⟩
  · cases h

theorem headerOf_of_false {n : Nat} (h : scanAnswer H s n = false) :
    (headerOf H s n).isSome := by
  unfold scanAnswer BlockChainImpl.scanBlockChain at h
  simp only at h
  split at h
  · rename_i hok
    simp [headerOf, hok.1]
  · cases h

theorem toNat_mFileOffset (h : AllShort s.2) {n : Nat} {header : BlockHeader}
    (hn : headerOf H s n = some header) :
    header.mFileOffset.toNat = recordStart header + 8 := by
  obtain ⟨hok, rfl⟩ := headerOf_some hn
  obtain ⟨start, hat⟩ := (readBlockHeader_result (H := H) (h.afterScans n)).header hok
  rw [recordStart, hat.offset]
  omega

/-- A header of a later call of the same file starts behind that of an earlier one. -/
theorem recordStart_lt (h : AllShort s.2) {n m : Nat} (hlt : n < m) {header header' : BlockHeader}
    (hn : headerOf H s n = some header) (hm : headerOf H s m = some header')
    (hfile : header.mFileIndex = header'.mFileIndex) :
    recordStart header + 8 ≤ recordStart header' := by
  obtain ⟨hok, rfl⟩ := headerOf_some hn
  obtain ⟨hok', rfl⟩ := headerOf_some hm
  obtain ⟨start, hat⟩ := (readBlockHeader_result (H := H) (h.afterScans n)).header hok
  obtain ⟨start', hat'⟩ := (readBlockHeader_result (H := H) (h.afterScans m)).header hok'
  -- the file of the first header is behind its record from the call `n` to the call `m`
  have hbetween := (scanBlockChain_forward (H := H) (afterScans H s n).2 (afterScans H s n).1).trans
    (forward_afterScans h hlt)
  obtain ⟨f, hf, hbehind⟩ := hat.behind
  obtain ⟨f', hf', -, hle⟩ := hbetween.files _ f hf
  have hstart := hat'.notBefore f' (hfile ▸ hf')
  rw [recordStart, recordStart, hat.offset, hat'.offset]
  omega

/-- No two calls read a header at one place. -/
theorem record_start_injective (h : AllShort s.2) {g : Nat → BlockHeader}
    (hg : ∀ n, headerOf H s n = some (g n)) :
    Function.Injective fun n => ((g n).mFileIndex.toFin, (g n).mFileOffset.toFin) := by
  intro n m heq
  obtain ⟨hindex, hoffset⟩ := Prod.mk.inj heq
  have hstart : recordStart (g n) = recordStart (g m) := by
    rw [recordStart, recordStart, UInt32.toFin_inj.mp hoffset]
  rcases Nat.lt_trichotomy n m with hlt | rfl | hlt
  · have hle := recordStart_lt h hlt (hg n) (hg m) (UInt32.toFin_inj.mp hindex)
    omega
  · rfl
  · have hle := recordStart_lt h hlt (hg m) (hg n) (UInt32.toFin_inj.mp hindex).symm
    omega

theorem allShort_new (memory : BlockChainImpl) (maxBlocks : UInt32) (h : DiskShort memory) :
    AllShort (BlockChainImpl.new memory maxBlocks) := by
  have hnone : AllShort (memory.initialised maxBlocks) :=
    ⟨h, fun k f hf => by cases hf⟩
  exact hnone.openBlock

/-! ## Progress -/

/-- A record with a length of 0, and behind its 80 bytes a second one. -/
def shortLengthMemory : BlockChainImpl :=
  { (default : BlockChainImpl) with
    disk := fun i => if i = 0 then
        some (leBytes 4 MAGIC_ID.toNat ++ leBytes 4 0 ++ List.replicate 80 0 ++
          leBytes 4 MAGIC_ID.toNat ++ leBytes 4 80 ++ List.replicate 80 0)
      else none }

/-- The calls of `scanBlockChain` give `true` at some time, and a header that is
read later from the same file starts at least eight bytes further, whatever lengths
the records have: no place is read twice. -/
theorem the_scan_goes_forward_and_ends (H : Hashes) (memory : BlockChainImpl)
    (maxBlocks lastBlockRead : UInt32) (hdisk : DiskShort memory) :
    let s := (lastBlockRead, BlockChainImpl.new memory maxBlocks)
    (∃ n, scanAnswer H s n = true) ∧
    (∀ n header, headerOf H s n = some header →
      header.mFileOffset.toNat = recordStart header + 8) ∧
    ∀ n m header header', n < m → headerOf H s n = some header → headerOf H s m = some header' →
      header.mFileIndex = header'.mFileIndex →
      recordStart header + 8 ≤ recordStart header' := by
  intro s
  have hshort : AllShort s.2 := allShort_new memory maxBlocks hdisk
  refine ⟨?_, fun n header hn => toNat_mFileOffset hshort hn,
    fun n m header header' hlt hn hm hfile => recordStart_lt hshort hlt hn hm hfile⟩
  by_contra hnever
  have hall : ∀ n, ∃ header, headerOf H s n = some header := by
    intro n
    have hfalse : scanAnswer H s n = false :=
      Bool.eq_false_iff.mpr fun htrue => hnever ⟨n, htrue⟩
    exact Option.isSome_iff_exists.mp (headerOf_of_false hfalse)
  choose g hg using hall
  exact not_injective_infinite_finite _ (record_start_injective hshort hg)

theorem the_scan_goes_forward_over_a_short_length :
    let s := (0, BlockChainImpl.new shortLengthMemory 2)
    (∃ n, scanAnswer sampleHashes s n = true) ∧
    (∀ n header, headerOf sampleHashes s n = some header →
      header.mFileOffset.toNat = recordStart header + 8) ∧
    ∀ n m header header', n < m → headerOf sampleHashes s n = some header →
      headerOf sampleHashes s m = some header' → header.mFileIndex = header'.mFileIndex →
      recordStart header + 8 ≤ recordStart header' :=
  the_scan_goes_forward_and_ends sampleHashes shortLengthMemory 2 0 (by
    intro i bytes hbytes
    unfold shortLengthMemory at hbytes
    simp only at hbytes
    split at hbytes
    · obtain rfl := Option.some.inj hbytes
      simp only [List.length_append, leBytes_length, List.length_replicate]
      omega
    · cases hbytes)

end bitcoinstats.block_chain

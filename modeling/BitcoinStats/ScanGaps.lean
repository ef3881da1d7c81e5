-- Which records of files with gaps the scan visits: all of them as long as it finds each
-- file behind the one before it, and those up to a file at which it is aborted.
import BitcoinStats.GapFiles
import BitcoinStats.ScanProgress

open byte_memory keyed_set bitcoinstats.bitcoin_address

namespace bitcoinstats.block_chain

variable (H : Hashes)

/-! ## Visits, and where nothing is missed -/

/-- The calls of `scanBlockChain` read these headers one after the other, and then
the scan is complete. -/
def Visits : List BlockHeader → UInt32 × BlockChainImpl → Prop
  | [], s => (s.2.scanBlockChain H s.1).1 = true
  | header :: headers, s => (s.2.scanBlockChain H s.1).1 = false ∧
    (s.2.scanBlockChain H s.1).2.2.mLastBlockHeader = header ∧
    Visits headers (s.2.scanBlockChain H s.1).2

/-- The bytes in front of the first record, or all bytes if there is none. -/
def GapFile.leading (f : GapFile) : List UInt8 :=
  match f.records with
  | [] => f.trailing
  | r :: _ => r.gap

def StartsWithRecord (f : GapFile) : Prop := f.records ≠ [] ∧ f.leading = []

def NoRecords (files : List GapFile) : Prop := ∀ f ∈ files, f.records = []

/-- The scan gets from the end of one file past the first bytes of the next one: that
starts with a record, or it has four bytes in front of one and the scan has come to
the end of the file before, with less than four bytes left for a number. -/
def Found (f f' : GapFile) : Prop :=
  StartsWithRecord f' ∨ f.trailing.length < 4 ∧ 4 ≤ f'.leading.length

/-- Each file is found behind the one before it, as long as there are records left. -/
def NothingMissed : List GapFile → Prop
  | f :: f' :: files => (NoRecords (f' :: files) ∨ Found f f') ∧ NothingMissed (f' :: files)
  | _ => True

/-- The scan is aborted between two files: a search has come to the end of the first one
and the second one does not start with a record, or has no number at its start. -/
def Aborts (f f' : GapFile) : Prop :=
  4 ≤ f.trailing.length ∧ ¬ StartsWithRecord f' ∨ f'.bytes.length < 4

/-- No file follows these, or the scan is aborted at the one that does. -/
def EndsWith (front back : List GapFile) : Prop :=
  ∀ f' ∈ back.head?, ∃ f ∈ front.getLast?, Aborts f f'

/-- The records end where a 32 bit position still reaches, and so does the number
of the files. -/
structure FilesFit (files : List GapFile) : Prop where
  records_lt : ∀ f ∈ files, (gapRecordBytes f.records).length < 2 ^ 32
  files_lt : files.length < 2 ^ 32

theorem fits_nil : FilesFit [] where
  records_lt := by
    intro f hf
    cases hf
  files_lt := by decide

theorem FilesFit.tail {f : GapFile} {files : List GapFile} (h : FilesFit (f :: files)) :
    FilesFit files where
  records_lt := fun f' hf' => h.records_lt f' (List.mem_cons_of_mem f hf')
  files_lt := by
    have hlt := h.files_lt
    rw [List.length_cons] at hlt
    omega

/-! ## The header of a record -/

variable {H} {b b1 : BlockChainImpl} {fph position : Nat} {bytes : List UInt8}

variable {n : Nat} {f f' : GapFile} {files : List GapFile} {done rest : List GapRecord}
  {r : GapRecord}

/-- The header of the record `r` was read, and the scan stands behind it. -/
structure RecordRead (H : Hashes) (result : Bool × BlockChainImpl) (n : Nat) (f : GapFile)
    (files : List GapFile) (done : List GapRecord) (r : GapRecord) : Prop where
  ok : result.1 = true
  header : result.2.mLastBlockHeader =
    r.record.header H n ((gapRecordBytes done).length + r.gap.length)
  inside : InsideFile result.2 n f files (gapRecordBytes (done ++ [r])).length

theorem InsideFile.afterHeader (h : InsideFile b n f files position) (position' : Nat)
    (header : BlockHeader) :
    InsideFile (b.afterHeader n { bytes := f.bytes, position := position' } header) n f files
      position' :=
  have hset := h.setFile position'
  ⟨⟨hset.closed.opened, hset.closed.disk, hset.closed.count⟩, hset.isOpen, hset.index⟩

/-- The record ends with the records in front of the next one. -/
theorem length_done_record (done : List GapRecord) (r : GapRecord) :
    (gapRecordBytes (done ++ [r])).length =
      (gapRecordBytes done).length + r.gap.length + r.record.bytes.length := by
  rw [gapRecordBytes_append, List.length_append, gapRecordBytes_cons, List.length_append,
    r.length_bytes]
  simp [gapRecordBytes]
  omega

theorem length_done_lt (hsplit : f.records = done ++ r :: rest)
    (hfits : (gapRecordBytes f.records).length < 2 ^ 32) :
    (gapRecordBytes (done ++ [r])).length < 2 ^ 32 := by
  rw [hsplit, List.append_cons, gapRecordBytes_append, List.length_append] at hfits
  omega

theorem reads_readHeader
    (h : InsideFile b n f files ((gapRecordBytes done).length + r.gap.length + 4))
    (hsplit : f.records = done ++ r :: rest)
    (hfits : (gapRecordBytes f.records).length < 2 ^ 32) :
    RecordRead H (b.readHeader H n) n f files done r := by
  have hend := length_done_lt hsplit hfits
  rw [length_done_record] at hend
  have hbytes := GapFile.drop_record hsplit (le_refl r.gap.length)
  rw [List.drop_length, List.nil_append] at hbytes
  have hdata : f.bytes.drop ((gapRecordBytes done).length + r.gap.length + 4) =
      leBytes 4 r.record.data.length ++
        (r.record.data ++ (gapRecordBytes rest ++ f.trailing)) := by
    rw [← List.drop_drop, hbytes, List.drop_left' magicBytes_length]
  rw [readHeader_record n h.isOpen r.record hdata hend h.index, ← length_done_record]
  exact ⟨rfl, rfl, h.afterHeader _ _⟩

/-! ## InsideFile of a file -/

theorem readMagic_here (h : InsideFile b n f files position) {w : UInt32}
    (hread : b.freadU32 n = (some w, b1)) :
    b.readMagic =
      ({ fph := n, lastBlockRead := UInt32.ofNat position, magicID := some w }, b1) := by
  rw [readMagic_some h.index_toNat hread, h.isOpen.file_eq]
  rfl

/-- The next record of a file is read, whatever lies in front of it. -/
theorem reads_record (h : InsideFile b n f files (gapRecordBytes done).length)
    (hsplit : f.records = done ++ r :: rest)
    (hfits : (gapRecordBytes f.records).length < 2 ^ 32) :
    RecordRead H (b.readBlockHeader H) n f files done r := by
  have hend := length_done_lt hsplit hfits
  rw [length_done_record] at hend
  by_cases hgap : r.gap = []
  · have hread := freadU32_record h hsplit hgap
    rw [readBlockHeader_magic h.lt (readMagic_here h hread) rfl]
    refine reads_readHeader ?_ hsplit hfits
    rw [hgap]
    exact h.setFile _
  · obtain ⟨w, hw, hread⟩ := freadU32_gap h hsplit hgap
    rw [readBlockHeader_search h.lt (readMagic_here h hread) rfl hw]
    have hskip := skipToMagic_record (h.setFile ((gapRecordBytes done).length + 4)) hsplit
      (Nat.zero_le r.gap.length)
      (UInt32.toNat_ofNat_of_lt' (by rw [UInt32.size]; omega) :
        (UInt32.ofNat (gapRecordBytes done).length).toNat = _)
      (by omega)
    rw [setFile_setFile] at hskip
    simp only [hskip, if_true]
    exact reads_readHeader (h.setFile _) hsplit hfits

/-! ## Behind a search that found nothing -/

theorem startsWithRecord_iff (hrecords : f.records = r :: rest) :
    StartsWithRecord f ↔ r.gap = [] := by
  simp [StartsWithRecord, GapFile.leading, hrecords]

/-- A file with a record has a number at its start. -/
theorem four_le_length (hrecords : f.records = r :: rest) : 4 ≤ f.bytes.length := by
  have hbytes := congrArg List.length (GapFile.drop_record
    (show f.records = [] ++ r :: rest from hrecords) (Nat.zero_le r.gap.length))
  rw [List.length_drop, List.length_append, List.length_append, magicBytes_length] at hbytes
  omega

/-- No other file has the magic number as its first number. -/
theorem freadU32_start (h : InsideFile b n f files 0) (hstart : ¬ StartsWithRecord f) :
    (b.freadU32 n).1 ≠ some MAGIC_ID := by
  cases hrecords : f.records with
  | cons r rest =>
    have hgap : r.gap ≠ [] := fun hgap => hstart ((startsWithRecord_iff hrecords).mpr hgap)
    have hplace : InsideFile b n f files (gapRecordBytes []).length := h
    obtain ⟨w, hw, hread⟩ := freadU32_gap hplace hrecords hgap
    rw [hread]
    exact fun hmagic => hw (Option.some.inj hmagic)
  | nil =>
    have hplace : InsideFile b n f files (gapRecordBytes f.records).length := by
      rw [hrecords]
      exact h
    rcases Nat.lt_or_ge f.trailing.length 4 with hshort | hfour
    · obtain ⟨q, hread⟩ := freadU32_end hplace hshort
      rw [hread]
      exact fun hmagic => by cases hmagic
    · obtain ⟨w, hw, hread⟩ := freadU32_trailing hplace hfour
      rw [hread]
      exact fun hmagic => hw (Option.some.inj hmagic)

/-- What the scan does with the next file once a search found nothing. -/
structure AfterSearch (H : Hashes) (result : Bool × BlockChainImpl) (n : Nat)
    (files : List GapFile) : Prop where
  last : files = [] → result.1 = false
  next : ∀ f files', files = f :: files' →
    (∀ r rest, f.records = r :: rest → r.gap = [] → RecordRead H result n f files' [] r) ∧
    (¬ StartsWithRecord f → result.1 = false)

theorem afterSearch (h : InsideFile b n f files position) (j : Nat) {lastBlockRead : UInt32}
    (hlast : lastBlockRead.toNat = (gapRecordBytes f.records).length + j) (hfits : FilesFit files) :
    let s := b.skipToMagic n lastBlockRead
    AfterSearch H (if s.2.1 then s.2.2.readHeader H s.1 else (false, s.2.2)) (n + 1) files where
  last := by
    rintro rfl
    rw [skipToMagic_last h j hlast]
    rfl
  next := by
    rintro f' files' rfl
    obtain ⟨b', hinside, hskip⟩ := skipToMagic_next h j hlast
    simp only [hskip]
    refine ⟨?_, ?_⟩
    · intro r rest hrecords hgap
      have hplace : InsideFile b' (n + 1) f' files' (gapRecordBytes []).length := hinside
      rw [freadU32_record hplace hrecords hgap]
      simp only [decide_true, if_true]
      refine reads_readHeader ?_ hrecords (hfits.records_lt f' List.mem_cons_self)
      rw [hgap]
      exact hinside.setFile 4
    · intro hstart
      rw [decide_eq_false (freadU32_start hinside hstart)]
      rfl

/-! ## Behind the end of a file -/

/-- At the end of a file the next one is opened and its first number read. The
search would start behind that number. -/
theorem readMagic_next (h : InsideFile b n f (f' :: files) (gapRecordBytes f.records).length)
    (hshort : f.trailing.length < 4) :
    ∃ b', InsideFile b' (n + 1) f' files 0 ∧ b.readMagic =
      ({ fph := n + 1
         lastBlockRead := ((b'.freadU32 (n + 1)).2.file (n + 1)).ftell
         magicID := (b'.freadU32 (n + 1)).1 }, (b'.freadU32 (n + 1)).2) := by
  obtain ⟨q, hread⟩ := freadU32_end h hshort
  obtain ⟨hopen, hinside⟩ := (h.setFile q).closed.openBlock
  refine ⟨_, hinside, ?_⟩
  rw [readMagic_end h.index_toNat hread, hopen]
  simp only [hinside.index_toNat, if_true]

/-- Four bytes behind the last record are taken for a number, and the search finds nothing. -/
theorem end_searched (h : InsideFile b n f files (gapRecordBytes f.records).length)
    (hfour : 4 ≤ f.trailing.length) (hlt : (gapRecordBytes f.records).length < 2 ^ 32)
    (hfits : FilesFit files) : AfterSearch H (b.readBlockHeader H) (n + 1) files := by
  obtain ⟨w, hw, hread⟩ := freadU32_trailing h hfour
  rw [readBlockHeader_search h.lt (readMagic_here h hread) rfl hw]
  refine afterSearch (h.setFile _) 0 ?_ hfits
  simp only
  rw [UInt32.toNat_ofNat_of_lt' (by rw [UInt32.size]; omega), Nat.add_zero]

theorem end_last (h : InsideFile b n f [] (gapRecordBytes f.records).length)
    (hlt : (gapRecordBytes f.records).length < 2 ^ 32) : (b.readBlockHeader H).1 = false := by
  rcases Nat.lt_or_ge f.trailing.length 4 with hshort | hfour
  · obtain ⟨q, hread⟩ := freadU32_end h hshort
    have hclosed := (h.setFile q).closed.openBlock_nil
    have hmagic := readMagic_end h.index_toNat hread
    rw [hclosed] at hmagic
    simp only [Bool.false_eq_true, if_false] at hmagic
    rw [readBlockHeader_none h.lt hmagic rfl]
  · exact (end_searched h hfour hlt fits_nil).last rfl

/-- The first number of a file that has other bytes in front of its records. -/
theorem freadU32_first (h : InsideFile b n f files 0) (hstart : ¬ StartsWithRecord f)
    (hfour : 4 ≤ f.bytes.length) : ∃ w, w ≠ MAGIC_ID ∧ b.freadU32 n =
      (some w, b.setFile n { bytes := f.bytes, position := 4 }) := by
  refine ⟨_, ?_, freadU32_word h.isOpen (by rw [Nat.zero_add]; exact hfour)⟩
  intro hmagic
  apply freadU32_start h hstart
  rw [freadU32_word h.isOpen (by rw [Nat.zero_add]; exact hfour), hmagic]

/-- In a file that was just opened with other bytes in front, the search starts at
the fifth one. -/
theorem readBlockHeader_fresh (h : InsideFile b n f (f' :: files) (gapRecordBytes f.records).length)
    (hshort : f.trailing.length < 4) (hstart : ¬ StartsWithRecord f')
    (hfour : 4 ≤ f'.bytes.length) :
    ∃ b', InsideFile b' (n + 1) f' files 4 ∧ b.readBlockHeader H =
      let s := b'.skipToMagic (n + 1) (UInt32.ofNat 4)
      if s.2.1 then s.2.2.readHeader H s.1 else (false, s.2.2) := by
  obtain ⟨b', hinside, hmagic⟩ := readMagic_next h hshort
  have hset := hinside.setFile 4
  obtain ⟨w, hw, hread⟩ := freadU32_first hinside hstart hfour
  rw [hread, hset.isOpen.file_eq, File.ftell] at hmagic
  refine ⟨_, hset, ?_⟩
  rw [readBlockHeader_search h.lt hmagic rfl hw]

/-- The first record of a file that was just opened is read, if it has no bytes in
front of it or at least four. -/
theorem reads_next (h : InsideFile b n f (f' :: files) (gapRecordBytes f.records).length)
    (hshort : f.trailing.length < 4) (hrecords : f'.records = r :: rest)
    (hgap : r.gap = [] ∨ 4 ≤ r.gap.length)
    (hfits : (gapRecordBytes f'.records).length < 2 ^ 32) :
    RecordRead H (b.readBlockHeader H) (n + 1) f' files [] r := by
  rcases hgap with hgap | hfour
  · obtain ⟨b', hinside, hmagic⟩ := readMagic_next h hshort
    have hplace : InsideFile b' (n + 1) f' files (gapRecordBytes []).length := hinside
    rw [freadU32_record hplace hrecords hgap] at hmagic
    rw [readBlockHeader_magic h.lt hmagic rfl]
    refine reads_readHeader ?_ hrecords hfits
    rw [hgap]
    exact hinside.setFile 4
  · have hgap := r.gap_lt
    have hne : r.gap ≠ [] := List.ne_nil_of_length_pos (by omega)
    obtain ⟨b', hinside, hsearch⟩ := readBlockHeader_fresh (H := H) h hshort
      (fun hstart => hne ((startsWithRecord_iff hrecords).mp hstart)) (four_le_length hrecords)
    have hskip := skipToMagic_record hinside hrecords hfour
      (show (UInt32.ofNat 4).toNat = (gapRecordBytes []).length + 4 from rfl)
      (by rw [show (gapRecordBytes []).length = 0 from rfl]; omega)
    rw [hsearch]
    simp only [hskip, if_true]
    exact reads_readHeader (hinside.setFile _) hrecords hfits

/-- A file without records is passed only if it is searched. -/
theorem end_noRecords (h : InsideFile b n f (f' :: files) (gapRecordBytes f.records).length)
    (hrecords : f'.records = []) (hfits : FilesFit (f :: f' :: files)) :
    ¬ Found f f' ∧ (b.readBlockHeader H).1 = false ∨
    Found f f' ∧ 4 ≤ f'.trailing.length ∧ AfterSearch H (b.readBlockHeader H) (n + 2) files := by
  have hleading : f'.leading = f'.trailing := by rw [GapFile.leading, hrecords]
  have hstart : ¬ StartsWithRecord f' := fun hstart => hstart.1 hrecords
  rcases Nat.lt_or_ge f.trailing.length 4 with hshort | hsearched
  · rcases Nat.lt_or_ge f'.trailing.length 4 with hshort' | hfour
    · left
      refine ⟨?_, ?_⟩
      · rintro (hstart' | ⟨-, hfour⟩)
        · exact hstart hstart'
        · rw [hleading] at hfour
          omega
      · obtain ⟨b', hinside, hmagic⟩ := readMagic_next h hshort
        have hplace : InsideFile b' (n + 1) f' files (gapRecordBytes f'.records).length := by
          rw [hrecords]
          exact hinside
        obtain ⟨q, hread⟩ := freadU32_end hplace hshort'
        rw [hread] at hmagic
        rw [readBlockHeader_none h.lt hmagic rfl]
    · right
      refine ⟨Or.inr ⟨hshort, by rw [hleading]; exact hfour⟩, hfour, ?_⟩
      obtain ⟨b', hinside, hsearch⟩ := readBlockHeader_fresh (H := H) h hshort hstart
        (by rw [GapFile.bytes, List.length_append]; omega)
      rw [hsearch]
      refine afterSearch hinside 4 ?_ hfits.tail.tail
      rw [hrecords]
      rfl
  · left
    refine ⟨?_, ?_⟩
    · rintro (hstart' | ⟨hshort, -⟩)
      · exact hstart hstart'
      · omega
    · have hafter := end_searched (H := H) h hsearched
        (hfits.records_lt f List.mem_cons_self) hfits.tail
      exact (hafter.next f' files rfl).2 hstart

/-! ## A record that is missed -/

/-- Where the header that is read lies. -/
theorem readHeader_place (hok : (b.readHeader H fph).1 = true) :
    (b.readHeader H fph).2.mLastBlockHeader.mFileIndex = b.mBlockIndex ∧
    ∃ bytes p, b.Open fph bytes p ∧
      (b.readHeader H fph).2.mLastBlockHeader.mFileOffset = UInt32.ofNat (p + 4) := by
  unfold BlockChainImpl.readHeader at hok ⊢
  simp only at hok ⊢
  split at hok
  · cases hok
  · rename_i mBlockLength hlength
    have hsome : (b.freadU32 fph).1.isSome := by
      rw [hlength]
      rfl
    obtain ⟨bytes, p, hopen, -, hread⟩ := freadU32_isSome hsome
    split at hok
    · split at hok
      · rename_i hlt hprefix
        simp only [hlt, hprefix, if_true]
        refine ⟨rfl, bytes, p, hopen, ?_⟩
        rw [hread, (open_setFile hopen _).file_eq]
        rfl
      · cases hok
    · cases hok

/-- A search from the fifth byte finds nothing at the first four. -/
theorem skipToMagic_fifth (h : InsideFile b n f files position)
    (hok : (b.skipToMagic n (UInt32.ofNat 4)).2.1 = true) :
    (b.skipToMagic n (UInt32.ofNat 4)).2.2.mBlockIndex ≠ UInt32.ofNat n ∨
    (b.skipToMagic n (UInt32.ofNat 4)).1 = n ∧ ∃ i < MAX_BLOCK_SIZE.toNat,
      (b.skipToMagic n (UInt32.ofNat 4)).2.2.Open n f.bytes (i + 8) := by
  have hmax := toNat_MAX_BLOCK_SIZE
  have hread := fread_search h.isOpen 4
  obtain ⟨chunk, hchunk⟩ : ∃ chunk, chunk = (f.bytes.drop 4).take MAX_BLOCK_SIZE.toNat := ⟨_, rfl⟩
  have hlen : chunk.length ≤ MAX_BLOCK_SIZE.toNat := by
    rw [hchunk]
    exact List.length_take_le _ _
  rw [← hchunk] at hread
  have hset := h.setFile (4 + chunk.length)
  unfold BlockChainImpl.skipToMagic at hok ⊢
  rw [show (UInt32.ofNat 4).toNat = 4 from rfl] at hok ⊢
  simp only [hread] at hok ⊢
  cases hsearch : searchMagic
      (searchMemory (b.setFile n { bytes := f.bytes, position := 4 + chunk.length }).heap chunk)
      chunk.length with
  | some i =>
    right
    have hi := searchMagic_lt hsearch
    have hpos : (UInt32.ofNat 4 + UInt32.ofNat i).toNat = 4 + i := by
      rw [UInt32.toNat_add, UInt32.toNat_ofNat_of_lt' (by rw [UInt32.size]; omega),
        UInt32.toNat_ofNat_of_lt' (by rw [UInt32.size]; omega)]
      omega
    simp only [hsearch, hpos, BlockChainImpl.fseek, hset.isOpen.file_eq, File.fseek,
      setFile_setFile] at hok ⊢
    have hsought := h.setFile (4 + i)
    obtain ⟨bytes, p, hopen, -, heq⟩ := freadU32_isSome hok
    obtain ⟨rfl, rfl⟩ := File.mk.inj (Option.some.inj (hopen.symm.trans hsought.isOpen))
    refine ⟨trivial, i, by omega, ?_⟩
    rw [heq, setFile_setFile, show i + 8 = 4 + i + 4 by omega]
    exact (h.setFile _).isOpen
  | none =>
    left
    simp only [hsearch] at hok ⊢
    cases files with
    | nil =>
      rw [hset.closed.openBlock_nil] at hok
      cases hok
    | cons f' files =>
      obtain ⟨hopen, hinside⟩ := hset.closed.openBlock
      have hcount := hinside.closed.count
      simp only [hopen, if_true]
      intro hindex
      have heq := congrArg UInt32.toNat (hinside.index.symm.trans hindex)
      rw [UInt32.toNat_ofNat_of_lt' (by rw [UInt32.size]; omega),
        UInt32.toNat_ofNat_of_lt' (by rw [UInt32.size]; omega)] at heq
      omega

/-- Up to three bytes in front of the first record of a file that was just opened
make the scan miss it. -/
theorem missed_next (h : InsideFile b n f (f' :: files) (gapRecordBytes f.records).length)
    (hshort : f.trailing.length < 4) (hrecords : f'.records = r :: rest) (hgap : r.gap ≠ [])
    (hfew : r.gap.length < 4) (hok : (b.readBlockHeader H).1 = true) :
    (b.readBlockHeader H).2.mLastBlockHeader ≠ r.record.header H (n + 1) r.gap.length := by
  obtain ⟨b', hinside, hsearch⟩ := readBlockHeader_fresh (H := H) h hshort
    (fun hstart => hgap ((startsWithRecord_iff hrecords).mp hstart)) (four_le_length hrecords)
  have hmax := toNat_MAX_BLOCK_SIZE
  simp only at hsearch
  rw [hsearch] at hok ⊢
  split at hok
  · rename_i hfound
    rw [if_pos hfound]
    obtain ⟨hindex, bytes, p, hopen, hoffset⟩ := readHeader_place hok
    intro hheader
    rw [hheader] at hindex hoffset
    rcases skipToMagic_fifth hinside hfound with hother | ⟨hfile, i, hi, hplace⟩
    · exact hother hindex.symm
    · rw [hfile] at hopen
      obtain ⟨-, rfl⟩ := File.mk.inj (Option.some.inj (hopen.symm.trans hplace))
      have heq := congrArg UInt32.toNat hoffset
      simp only [BlockRecord.header] at heq
      rw [UInt32.toNat_ofNat_of_lt' (by rw [UInt32.size]; omega),
        UInt32.toNat_ofNat_of_lt' (by rw [UInt32.size]; omega)] at heq
      omega
  · cases hok

/-! ## One call -/

/-- The scan stands behind the records `done` of the file `f`. -/
structure Place (b : BlockChainImpl) (n : Nat) (f : GapFile) (files : List GapFile)
    (done rest : List GapRecord) : Prop where
  inside : InsideFile b n f files (gapRecordBytes done).length
  split : f.records = done ++ rest
  fits : FilesFit (f :: files)

/-- The headers that are still to come. -/
def headersToCome (H : Hashes) (n : Nat) (done rest : List GapRecord) (files : List GapFile) :
    List BlockHeader :=
  gapRecordHeaders H n (gapRecordBytes done).length rest ++ gapFileHeaders H (n + 1) files

/-- The header was read, and these are to come. Nothing is missed from there on if
and only if nothing is missed in `files`. -/
def GoesOn (H : Hashes) (result : Bool × BlockChainImpl) (header : BlockHeader)
    (headers : List BlockHeader) (files : List GapFile) : Prop :=
  result.1 = true ∧ result.2.mLastBlockHeader = header ∧
  ∃ n f files' done rest, Place result.2 n f files' done rest ∧
    headersToCome H n done rest files' = headers ∧
    (NothingMissed files ↔ NothingMissed (f :: files'))

/-- The header was not read. -/
def Misses (result : Bool × BlockChainImpl) (header : BlockHeader) (files : List GapFile) : Prop :=
  ¬ NothingMissed files ∧ (result.1 = true → result.2.mLastBlockHeader ≠ header)

theorem headersToCome_cons :
    headersToCome H n done (r :: rest) files =
      r.record.header H n ((gapRecordBytes done).length + r.gap.length) ::
        headersToCome H n (done ++ [r]) rest files := by
  simp [headersToCome, gapRecordHeaders, gapRecordBytes, GapRecord.bytes]

/-- The headers to come at the end of a file are those of the next one. -/
theorem headersToCome_next : headersToCome H n done [] (f' :: files) =
    headersToCome H (n + 1) [] f'.records files := by
  simp [headersToCome, gapRecordHeaders, gapFileHeaders, gapRecordBytes]

theorem noRecords_iff (files : List GapFile) :
    NoRecords files ↔ gapFileHeaders H n files = [] := by
  induction files generalizing n with
  | nil => simp [NoRecords, gapFileHeaders]
  | cons f files ih =>
    have hfile : gapRecordHeaders H n 0 f.records = [] ↔ f.records = [] := by
      cases f.records with
      | nil => simp [gapRecordHeaders]
      | cons r rest => simp [gapRecordHeaders]
    rw [gapFileHeaders, List.append_eq_nil_iff, hfile, ← ih, NoRecords, List.forall_mem_cons]
    rfl

theorem headersToCome_nil : headersToCome H n done [] files = gapFileHeaders H (n + 1) files := by
  simp [headersToCome, gapRecordHeaders]

theorem not_noRecords_of_come {header : BlockHeader} {headers : List BlockHeader}
    (hcome : headersToCome H n done [] files = header :: headers) : ¬ NoRecords files := by
  rw [noRecords_iff (H := H) (n := n + 1), ← @headersToCome_nil H n files done, hcome]
  exact List.cons_ne_nil header headers

theorem RecordRead.place {result : Bool × BlockChainImpl} (h : RecordRead H result n f files done r)
    (hsplit : f.records = done ++ r :: rest) (hfits : FilesFit (f :: files)) :
    Place result.2 n f files (done ++ [r]) rest :=
  ⟨h.inside, by rw [hsplit, List.append_cons], hfits⟩

theorem RecordRead.goesOn {result : Bool × BlockChainImpl}
    (h : RecordRead H result n f files done r) (hsplit : f.records = done ++ r :: rest)
    (hfits : FilesFit (f :: files)) {all : List GapFile}
    (hiff : NothingMissed all ↔ NothingMissed (f :: files)) :
    GoesOn H result (r.record.header H n ((gapRecordBytes done).length + r.gap.length))
      (headersToCome H n (done ++ [r]) rest files) all :=
  ⟨h.ok, h.header, n, f, files, done ++ [r], rest, h.place hsplit hfits, rfl, hiff⟩

theorem nothingMissed_of_noRecords {files : List GapFile} (h : NoRecords files) (f : GapFile) :
    NothingMissed (f :: files) := by
  induction files generalizing f with
  | nil => trivial
  | cons f' files ih =>
    exact ⟨Or.inl h, ih (fun x hx => h x (List.mem_cons_of_mem f' hx)) f'⟩

/-- A place in front of which all records of the file lie. -/
theorem Place.done_eq (h : Place b n f files done []) : done = f.records := by
  rw [h.split, List.append_nil]

theorem Place.at_end (h : Place b n f files done []) :
    InsideFile b n f files (gapRecordBytes f.records).length := by
  rw [← h.done_eq]
  exact h.inside

theorem Place.lt (h : Place b n f files done rest) :
    (gapRecordBytes f.records).length < 2 ^ 32 := h.fits.records_lt f List.mem_cons_self

theorem found_searched (h : 4 ≤ f.trailing.length) : Found f f' ↔ StartsWithRecord f' := by
  constructor
  · rintro (hstart | ⟨hshort, -⟩)
    · exact hstart
    · omega
  · exact Or.inl

/-- Nothing is missed in two files in a row. -/
theorem nothingMissed_cons (hrecords : ¬ NoRecords (f' :: files)) :
    NothingMissed (f :: f' :: files) ↔ Found f f' ∧ NothingMissed (f' :: files) := by
  rw [NothingMissed, or_iff_right hrecords]

theorem not_noRecords (hrecords : f.records = r :: rest) : ¬ NoRecords (f :: files) := by
  intro hnone
  have hnil := hnone f List.mem_cons_self
  rw [hrecords] at hnil
  cases hnil

/-- Behind a search that found nothing, a file with records is read from its start or not. -/
theorem AfterSearch.step {result : Bool × BlockChainImpl}
    (h : AfterSearch H result n (f' :: files)) (hsearched : 4 ≤ f.trailing.length)
    (hfits : FilesFit (f' :: files)) (hrecords : f'.records = r :: rest) {all : List GapFile}
    (hiff : NothingMissed all ↔ NothingMissed (f :: f' :: files)) :
    GoesOn H result (r.record.header H n ((gapRecordBytes []).length + r.gap.length))
      (headersToCome H n [r] rest files) all ∨
    Misses result (r.record.header H n ((gapRecordBytes []).length + r.gap.length)) all := by
  rw [nothingMissed_cons (not_noRecords hrecords), found_searched hsearched] at hiff
  obtain ⟨hreads, hfails⟩ := h.next f' files rfl
  by_cases hgap : r.gap = []
  · have hstart := (startsWithRecord_iff hrecords).mpr hgap
    rw [and_iff_right hstart] at hiff
    exact Or.inl ((hreads r rest hrecords hgap).goesOn hrecords hfits hiff)
  · have hstart : ¬ StartsWithRecord f' :=
      fun hstart => hgap ((startsWithRecord_iff hrecords).mp hstart)
    refine Or.inr ⟨fun hall => hstart (hiff.mp hall).1, fun hok => ?_⟩
    rw [hfails hstart] at hok
    cases hok

/-- The first record of a file that is found is read. -/
theorem reads_found (h : Place b n f (f' :: files) done []) (hrecords : f'.records = r :: rest)
    (hfound : Found f f') : RecordRead H (b.readBlockHeader H) (n + 1) f' files [] r := by
  rcases Nat.lt_or_ge f.trailing.length 4 with hshort | hsearched
  · have hgap : r.gap = [] ∨ 4 ≤ r.gap.length := by
      rcases hfound with hstart | ⟨-, hfour⟩
      · exact Or.inl ((startsWithRecord_iff hrecords).mp hstart)
      · rw [GapFile.leading, hrecords] at hfour
        exact Or.inr hfour
    exact reads_next h.at_end hshort hrecords hgap (h.fits.tail.records_lt f' List.mem_cons_self)
  · have hstart := (found_searched hsearched).mp hfound
    have hafter := end_searched (H := H) h.at_end hsearched h.lt h.fits.tail
    exact (hafter.next f' files rfl).1 r rest hrecords ((startsWithRecord_iff hrecords).mp hstart)

/-- The first record of another file is not. -/
theorem not_read (h : Place b n f (f' :: files) done []) (hrecords : f'.records = r :: rest)
    (hlost : ¬ Found f f') (hok : (b.readBlockHeader H).1 = true) :
    (b.readBlockHeader H).2.mLastBlockHeader ≠
      r.record.header H (n + 1) ((gapRecordBytes []).length + r.gap.length) := by
  rcases Nat.lt_or_ge f.trailing.length 4 with hshort | hsearched
  · have hgap : r.gap ≠ [] :=
      fun hgap => hlost (Or.inl ((startsWithRecord_iff hrecords).mpr hgap))
    have hfew : r.gap.length < 4 := by
      by_contra hfour
      refine hlost (Or.inr ⟨hshort, ?_⟩)
      rw [GapFile.leading, hrecords]
      exact Nat.le_of_not_lt hfour
    rw [show (gapRecordBytes []).length = 0 from rfl, Nat.zero_add]
    exact missed_next h.at_end hshort hrecords hgap hfew hok
  · have hafter := end_searched (H := H) h.at_end hsearched h.lt h.fits.tail
    rw [(hafter.next f' files rfl).2 fun hstart => hlost (Or.inl hstart)] at hok
    cases hok

/-- The next header is the first one of the next file. -/
theorem step_next (h : Place b n f (f' :: files) done []) (hrecords : f'.records = r :: rest) :
    GoesOn H (b.readBlockHeader H)
      (r.record.header H (n + 1) ((gapRecordBytes []).length + r.gap.length))
      (headersToCome H (n + 1) [r] rest files) (f :: f' :: files) ∨
    Misses (b.readBlockHeader H)
      (r.record.header H (n + 1) ((gapRecordBytes []).length + r.gap.length))
      (f :: f' :: files) := by
  have hne : ¬ NoRecords (f' :: files) := not_noRecords hrecords
  have hiff := nothingMissed_cons (f := f) hne
  by_cases hfound : Found f f'
  · rw [and_iff_right hfound] at hiff
    exact Or.inl ((reads_found h hrecords hfound).goesOn hrecords h.fits.tail hiff)
  · exact Or.inr ⟨fun hall => hfound (hiff.mp hall).1, not_read h hrecords hfound⟩

/-- One call takes the next header, or it misses it. -/
theorem read_step (h : Place b n f files done rest) {header : BlockHeader}
    {headers : List BlockHeader} (hcome : headersToCome H n done rest files = header :: headers) :
    GoesOn H (b.readBlockHeader H) header headers (f :: files) ∨
    Misses (b.readBlockHeader H) header (f :: files) := by
  cases rest with
  | cons r rest =>
    rw [headersToCome_cons] at hcome
    obtain ⟨rfl, rfl⟩ := List.cons.inj hcome
    exact Or.inl ((reads_record h.inside h.split h.lt).goesOn h.split h.fits Iff.rfl)
  | nil =>
    cases files with
    | nil => cases hcome
    | cons f' files =>
      rw [headersToCome_next] at hcome
      cases hrecords : f'.records with
      | cons r rest =>
        rw [hrecords, headersToCome_cons] at hcome
        obtain ⟨rfl, rfl⟩ := List.cons.inj hcome
        exact step_next h hrecords
      | nil =>
        rw [hrecords] at hcome
        have hne := not_noRecords_of_come hcome
        have hiff : NothingMissed (f :: f' :: files) ↔ Found f f' ∧ NothingMissed (f' :: files) :=
          nothingMissed_cons fun hnone => hne fun x hx => hnone x (List.mem_cons_of_mem f' hx)
        rcases end_noRecords (H := H) h.at_end hrecords h.fits with
          ⟨hlost, hfalse⟩ | ⟨hfound, hfour, hafter⟩
        · refine Or.inr ⟨fun hall => hlost (hiff.mp hall).1, fun hok => ?_⟩
          rw [hfalse] at hok
          cases hok
        · rw [and_iff_right hfound] at hiff
          cases files with
          | nil => exact absurd (fun x hx => by cases hx) hne
          | cons f'' files =>
            rw [headersToCome_next] at hcome
            cases hrecords'' : f''.records with
            | cons r rest =>
              rw [hrecords'', headersToCome_cons] at hcome
              obtain ⟨rfl, rfl⟩ := List.cons.inj hcome
              exact hafter.step hfour h.fits.tail.tail hrecords'' hiff
            | nil =>
              have hstart : ¬ StartsWithRecord f'' := fun hstart => hstart.1 hrecords''
              refine Or.inr ⟨fun hall => ?_, fun hok => ?_⟩
              · have hfound' := ((nothingMissed_cons hne).mp (hiff.mp hall)).1
                exact hstart ((found_searched hfour).mp hfound')
              · rw [(hafter.next f'' files rfl).2 hstart] at hok
                cases hok

/-- With no header to come the call finds none. -/
theorem read_stop (h : Place b n f files done rest)
    (hcome : headersToCome H n done rest files = []) :
    (b.readBlockHeader H).1 = false ∧ NothingMissed (f :: files) := by
  cases rest with
  | cons r rest =>
    rw [headersToCome_cons] at hcome
    cases hcome
  | nil =>
    have hnone : NoRecords files := by
      rw [noRecords_iff (H := H) (n := n + 1)]
      exact hcome
    refine ⟨?_, nothingMissed_of_noRecords hnone f⟩
    cases files with
    | nil => exact end_last h.at_end h.lt
    | cons f' files =>
      rcases end_noRecords (H := H) h.at_end (hnone f' List.mem_cons_self) h.fits with
        ⟨-, hfalse⟩ | ⟨-, -, hafter⟩
      · exact hfalse
      · cases files with
        | nil => exact hafter.last rfl
        | cons f'' files =>
          have hnil := hnone f'' (List.mem_cons_of_mem f' List.mem_cons_self)
          exact (hafter.next f'' files rfl).2 fun hstart => hstart.1 hnil

/-! ## One call in front of an abort -/

variable {front back : List GapFile}

theorem not_startsWithRecord_of_aborts (h : Aborts f f') : ¬ StartsWithRecord f' := by
  rcases h with ⟨-, hstart⟩ | hshort
  · exact hstart
  · rintro ⟨hne, -⟩
    obtain ⟨r, rest, hrecords⟩ := List.exists_cons_of_ne_nil hne
    have hfour := four_le_length hrecords
    omega

theorem endsWith_cons : EndsWith (f :: f' :: front) back ↔ EndsWith (f' :: front) back := by
  rw [EndsWith, EndsWith, List.getLast?_cons_cons]

theorem aborts_of_endsWith (h : EndsWith [f] (f' :: back)) : Aborts f f' := by
  obtain ⟨f1, hf1, haborts⟩ := h f' rfl
  obtain rfl := Option.some.inj hf1
  exact haborts

/-- At an abort the call reads no header. -/
theorem aborts_stop (h : Place b n f (f' :: files) done []) (haborts : Aborts f f') :
    (b.readBlockHeader H).1 = false := by
  have hstart := not_startsWithRecord_of_aborts haborts
  rcases haborts with ⟨hsearched, -⟩ | hshort
  · exact ((end_searched h.at_end hsearched h.lt h.fits.tail).next f' files rfl).2 hstart
  · cases hrecords : f'.records with
    | cons r rest =>
      have hfour := four_le_length hrecords
      omega
    | nil =>
      rcases end_noRecords (H := H) h.at_end hrecords h.fits with ⟨-, hfalse⟩ | ⟨-, hfour, -⟩
      · exact hfalse
      · rw [GapFile.bytes, List.length_append] at hshort
        omega

/-- The next header of the files in front is read if none of them is missed. -/
theorem front_step (h : Place b n f (front ++ back) done rest) {header : BlockHeader}
    {headers : List BlockHeader} (hcome : headersToCome H n done rest front = header :: headers)
    (hfound : NothingMissed (f :: front)) (hends : EndsWith (f :: front) back) :
    (b.readBlockHeader H).1 = true ∧ (b.readBlockHeader H).2.mLastBlockHeader = header ∧
    ∃ n' f' front' done' rest', Place (b.readBlockHeader H).2 n' f' (front' ++ back) done' rest' ∧
      headersToCome H n' done' rest' front' = headers ∧ NothingMissed (f' :: front') ∧
      EndsWith (f' :: front') back := by
  cases rest with
  | cons r rest =>
    rw [headersToCome_cons] at hcome
    obtain ⟨rfl, rfl⟩ := List.cons.inj hcome
    have hreads := reads_record (H := H) h.inside h.split h.lt
    exact ⟨hreads.ok, hreads.header, n, f, front, _, rest, hreads.place h.split h.fits, rfl,
      hfound, hends⟩
  | nil =>
    cases front with
    | nil => cases hcome
    | cons f' front =>
      have hne := not_noRecords_of_come hcome
      rw [headersToCome_next] at hcome
      have hends' := endsWith_cons.mp hends
      obtain ⟨hfile, hlater⟩ := (nothingMissed_cons hne).mp hfound
      cases hrecords : f'.records with
      | cons r rest =>
        rw [hrecords, headersToCome_cons] at hcome
        obtain ⟨rfl, rfl⟩ := List.cons.inj hcome
        have hreads := reads_found (H := H) h hrecords hfile
        exact ⟨hreads.ok, hreads.header, n + 1, f', front, _, rest,
          hreads.place hrecords h.fits.tail, rfl, hlater, hends'⟩
      | nil =>
        rw [hrecords] at hcome
        rcases end_noRecords (H := H) h.at_end hrecords h.fits with
          ⟨hlost, -⟩ | ⟨-, hfour, hafter⟩
        · exact absurd hfile hlost
        · have hne' := not_noRecords_of_come hcome
          cases front with
          | nil => exact absurd (fun x hx => by cases hx) hne'
          | cons f'' front =>
            rw [headersToCome_next] at hcome
            obtain ⟨hfile', hlater'⟩ := (nothingMissed_cons hne').mp hlater
            have hstart := (found_searched hfour).mp hfile'
            obtain ⟨r, rest, hrecords'⟩ := List.exists_cons_of_ne_nil hstart.1
            rw [hrecords', headersToCome_cons] at hcome
            obtain ⟨rfl, rfl⟩ := List.cons.inj hcome
            have hgap := (startsWithRecord_iff hrecords').mp hstart
            have hreads := (hafter.next f'' (front ++ back) rfl).1 r rest hrecords' hgap
            exact ⟨hreads.ok, hreads.header, n + 2, f'', front, _, rest,
              hreads.place hrecords' h.fits.tail.tail, rfl, hlater', endsWith_cons.mp hends'⟩

/-- Behind the last of them the scan is complete. -/
theorem front_stop (h : Place b n f (front ++ back) done rest)
    (hcome : headersToCome H n done rest front = []) (hends : EndsWith (f :: front) back) :
    (b.readBlockHeader H).1 = false := by
  cases rest with
  | cons r rest =>
    rw [headersToCome_cons] at hcome
    cases hcome
  | nil =>
    rw [headersToCome_nil, ← noRecords_iff] at hcome
    cases front with
    | nil =>
      cases back with
      | nil => exact end_last h.at_end h.lt
      | cons f' back => exact aborts_stop h (aborts_of_endsWith hends)
    | cons f' front =>
      have hrecords := hcome f' List.mem_cons_self
      rcases end_noRecords (H := H) h.at_end hrecords h.fits with ⟨-, hfalse⟩ | ⟨-, -, hafter⟩
      · exact hfalse
      · cases front with
        | cons f'' front =>
          have hnil := hcome f'' (List.mem_cons_of_mem f' List.mem_cons_self)
          exact (hafter.next f'' _ rfl).2 fun hstart => hstart.1 hnil
        | nil =>
          cases back with
          | nil => exact hafter.last rfl
          | cons f'' back =>
            exact (hafter.next f'' back rfl).2
              (not_startsWithRecord_of_aborts (aborts_of_endsWith (endsWith_cons.mp hends)))

/-! ## All calls -/

theorem Place.count (h : Place b n f files done rest) (mScanCount : UInt32) :
    Place { b with mScanCount } n f files done rest :=
  ⟨⟨⟨h.inside.closed.opened, h.inside.closed.disk, h.inside.closed.count⟩, h.inside.isOpen,
    h.inside.index⟩, h.split, h.fits⟩

theorem scanBlockChain_of_true (hok : (b.readBlockHeader H).1 = true)
    (hmax : b.mScanCount < b.mMaxBlocks) (lastBlockRead : UInt32) :
    b.scanBlockChain H lastBlockRead = (false, b.mScanCount,
      { (b.readBlockHeader H).2 with mScanCount := b.mScanCount + 1 }) ∧
    (b.readBlockHeader H).2.mMaxBlocks = b.mMaxBlocks := by
  rcases readBlockHeader_cases (H := H) b with ⟨hfalse, -⟩ | ⟨-, header, hread⟩
  · rw [hfalse] at hok
    cases hok
  · unfold BlockChainImpl.scanBlockChain
    simp only [hok, hread.count, hread.max, hmax, and_self, if_true]

theorem scanBlockChain_of_false (hok : (b.readBlockHeader H).1 = false) (lastBlockRead : UInt32) :
    b.scanBlockChain H lastBlockRead = (true, lastBlockRead, (b.readBlockHeader H).2) := by
  unfold BlockChainImpl.scanBlockChain
  simp only [hok, Bool.false_eq_true, false_and, if_false]

/-- A call that reads a header, and the calls behind it. -/
theorem visits_cons {header : BlockHeader} {headers : List BlockHeader}
    (hok : (b.readBlockHeader H).1 = true) (hbelow : b.mScanCount < b.mMaxBlocks)
    (lastBlockRead : UInt32) :
    Visits H (header :: headers) (lastBlockRead, b) ↔
      (b.readBlockHeader H).2.mLastBlockHeader = header ∧
      Visits H headers (b.mScanCount,
        { (b.readBlockHeader H).2 with mScanCount := b.mScanCount + 1 }) := by
  rw [Visits, (scanBlockChain_of_true hok hbelow lastBlockRead).1]
  exact and_iff_right rfl

/-- The count stays below the limit while there are headers to come. -/
theorem count_lt {headers : List BlockHeader}
    (hmax : b.mScanCount.toNat + (headers.length + 1) ≤ b.mMaxBlocks.toNat) :
    b.mScanCount < b.mMaxBlocks ∧
    (b.mScanCount + 1).toNat + headers.length ≤ b.mMaxBlocks.toNat := by
  have hlt := b.mMaxBlocks.toNat_lt
  refine ⟨by rw [UInt32.lt_iff_toNat_lt]; omega, ?_⟩
  rw [UInt32.toNat_add, show (1 : UInt32).toNat = 1 from rfl]
  omega

/-- The calls visit the headers of the files in front of an abort. -/
theorem visits_front (headers : List BlockHeader) : ∀ {b : BlockChainImpl} {n : Nat} {f : GapFile}
    {front : List GapFile} {done rest : List GapRecord} (lastBlockRead : UInt32),
    Place b n f (front ++ back) done rest → headersToCome H n done rest front = headers →
    b.mScanCount.toNat + headers.length ≤ b.mMaxBlocks.toNat → NothingMissed (f :: front) →
    EndsWith (f :: front) back → Visits H headers (lastBlockRead, b) := by
  induction headers with
  | nil =>
    intro b n f front done rest lastBlockRead h hcome _ _ hends
    rw [Visits, scanBlockChain_of_false (front_stop h hcome hends)]
  | cons header headers ih =>
    intro b n f front done rest lastBlockRead h hcome hmax hfound hends
    obtain ⟨hbelow, hmax'⟩ := count_lt hmax
    obtain ⟨hok, hheader, n', f', front', done', rest', hplace, hcome', hfound', hends'⟩ :=
      front_step h hcome hfound hends
    have hmaxb := (scanBlockChain_of_true hok hbelow lastBlockRead).2
    rw [visits_cons hok hbelow]
    refine ⟨hheader, ih _ (hplace.count (b.mScanCount + 1)) hcome' ?_ hfound' hends'⟩
    simp only [hmaxb]
    exact hmax'

/-- From any place on, the calls visit the headers to come if nothing is missed, and
only then. -/
theorem visits_iff (headers : List BlockHeader) : ∀ {b : BlockChainImpl} {n : Nat} {f : GapFile}
    {files : List GapFile} {done rest : List GapRecord} (lastBlockRead : UInt32),
    Place b n f files done rest → headersToCome H n done rest files = headers →
    b.mScanCount.toNat + headers.length ≤ b.mMaxBlocks.toNat →
    (Visits H headers (lastBlockRead, b) ↔ NothingMissed (f :: files)) := by
  induction headers with
  | nil =>
    intro b n f files done rest lastBlockRead h hcome _
    obtain ⟨hfalse, hnothing⟩ := read_stop h hcome
    rw [Visits, scanBlockChain_of_false hfalse]
    exact iff_of_true rfl hnothing
  | cons header headers ih =>
    intro b n f files done rest lastBlockRead h hcome hmax
    obtain ⟨hbelow, hmax'⟩ := count_lt hmax
    rcases read_step h hcome with
      ⟨hok, hheader, n', f', files', done', rest', hplace, hcome', hiff⟩ | ⟨hmissed, hother⟩
    · have hmaxb := (scanBlockChain_of_true hok hbelow lastBlockRead).2
      rw [visits_cons hok hbelow, and_iff_right hheader, hiff]
      refine ih _ (hplace.count (b.mScanCount + 1)) hcome' ?_
      simp only [hmaxb]
      exact hmax'
    · refine iff_of_false ?_ hmissed
      intro hvisits
      cases hok : (b.readBlockHeader H).1 with
      | true => exact hother hok ((visits_cons hok hbelow _).mp hvisits).1
      | false =>
        rw [Visits, scanBlockChain_of_false hok] at hvisits
        cases hvisits.1

theorem length_gapRecordHeaders (fileIndex start : Nat) (records : List GapRecord) :
    (gapRecordHeaders H fileIndex start records).length = records.length := by
  induction records generalizing start with
  | nil => rfl
  | cons r rs ih => simp [gapRecordHeaders, ih]

theorem length_gapFileHeaders (fileIndex : Nat) (files : List GapFile) :
    (gapFileHeaders H fileIndex files).length = (files.map (fun f => f.records.length)).sum := by
  induction files generalizing fileIndex with
  | nil => rfl
  | cons f files ih => simp [gapFileHeaders, length_gapRecordHeaders, ih]

/-- The constructor leaves the scan at the start of the first file. -/
theorem place_new {memory : BlockChainImpl}
    (hdisk : ∀ i, memory.disk i = ((f :: files)[i]?).map GapFile.bytes)
    (hfits : FilesFit (f :: files))
    (maxBlocks : UInt32) :
    Place (BlockChainImpl.new memory maxBlocks) 0 f files [] f.records := by
  have hclosed : Closed (memory.initialised maxBlocks) 0 (f :: files) := by
    refine ⟨rfl, ?_, ?_⟩
    · intro i
      rw [Nat.zero_add]
      exact hdisk i
    · rw [Nat.zero_add]
      exact hfits.files_lt
  obtain ⟨hopen, hinside⟩ := hclosed.openBlock
  rw [BlockChainImpl.new, hopen]
  exact ⟨hinside, rfl, hfits⟩

/-- What the constructor sets besides the files. -/
theorem new_counts (memory : BlockChainImpl) (maxBlocks : UInt32) :
    (BlockChainImpl.new memory maxBlocks).mScanCount = 0 ∧
    (BlockChainImpl.new memory maxBlocks).mMaxBlocks = maxBlocks := by
  obtain ⟨fs, index, length, hopen⟩ := openBlock_frame (memory.initialised maxBlocks)
  rw [BlockChainImpl.new, hopen]
  exact ⟨rfl, rfl⟩

/-- Without a file the scan is complete at once. -/
theorem visits_new_nil {memory : BlockChainImpl} (hdisk : memory.disk 0 = none)
    (maxBlocks lastBlockRead : UInt32) :
    Visits H [] (lastBlockRead, BlockChainImpl.new memory maxBlocks) := by
  have hfalse : ((BlockChainImpl.new memory maxBlocks).readBlockHeader H).1 = false := by
    have hopen := openBlock_none
      (show (memory.initialised maxBlocks).mBlockDataFiles.length = 0 from rfl) (by decide) hdisk
    rw [BlockChainImpl.new, hopen]
    rfl
  rw [Visits, scanBlockChain_of_false hfalse]

/-! ## The scan of files with gaps -/

/-- As long as the records end where a 32 bit position reaches, the calls of
`scanBlockChain` visit every record of every file in order if and only if each file is
found behind the one before it. -/
theorem visits_iff_nothingMissed (H : Hashes) (files : List GapFile) (memory : BlockChainImpl)
    (maxBlocks lastBlockRead : UInt32)
    (hdisk : ∀ i, memory.disk i = (files[i]?).map GapFile.bytes) (hfits : FilesFit files)
    (hmax : (files.map (fun f => f.records.length)).sum ≤ maxBlocks.toNat) :
    Visits H (gapFileHeaders H 0 files) (lastBlockRead, BlockChainImpl.new memory maxBlocks) ↔
      NothingMissed files := by
  cases files with
  | nil => exact iff_of_true (visits_new_nil (hdisk 0) maxBlocks lastBlockRead) trivial
  | cons f files =>
    obtain ⟨hcount, hmaxb⟩ := new_counts memory maxBlocks
    refine visits_iff _ lastBlockRead (place_new hdisk hfits maxBlocks) ?_ ?_
    · simp [headersToCome, gapFileHeaders, gapRecordBytes]
    · rw [hcount, hmaxb, length_gapFileHeaders, show (0 : UInt32).toNat = 0 from rfl, Nat.zero_add]
      exact hmax

/-- One record, with zeros in front of it and behind it. -/
def zerosFile (leading trailing : Fin 5) : GapFile where
  records := [{
    gap := List.replicate leading 0
    record := sampleRecord (Vector.replicate 32 0) 0
    gap_lt := by
      rw [List.length_replicate]
      omega
    noMagic := by
      unfold NoMagicBefore
      revert leading
      decide }]
  trailing := List.replicate trailing 0
  trailing_lt := by
    rw [List.length_replicate]
    omega
  noMagic := by
    unfold NoMagicBefore
    revert trailing
    decide

def zerosFiles : List GapFile := [zerosFile 0 0, zerosFile 4 4, zerosFile 1 0]

def zerosMemory : BlockChainImpl :=
  { (default : BlockChainImpl) with disk := fun i => (zerosFiles[i]?).map GapFile.bytes }

theorem fits_zerosFiles : FilesFit zerosFiles where
  records_lt := by
    intro f hf
    have hlen : ∀ i j, (gapRecordBytes (zerosFile i j).records).length < 2 ^ 32 := by
      intro i j
      simp [zerosFile, gapRecordBytes, GapRecord.bytes, sampleRecord_bytes]
      omega
    simp only [zerosFiles, List.mem_cons, List.not_mem_nil, or_false] at hf
    rcases hf with rfl | rfl | rfl
    · exact hlen 0 0
    · exact hlen 4 4
    · exact hlen 1 0
  files_lt := by simp [zerosFiles]

/-- As long as the records end where a 32 bit position reaches, the calls of
`scanBlockChain` visit every record of these files in order, whatever lies between the
records, if each file is found behind the one before it and no file follows, or the
scan is aborted at the one that does. -/
theorem the_records_are_visited_up_to_an_abort (H : Hashes) (front back : List GapFile)
    (memory : BlockChainImpl) (maxBlocks lastBlockRead : UInt32)
    (hdisk : ∀ i, memory.disk i = ((front ++ back)[i]?).map GapFile.bytes)
    (hfits : FilesFit (front ++ back))
    (hmax : (front.map (fun f => f.records.length)).sum ≤ maxBlocks.toNat)
    (hfound : NothingMissed front) (hends : EndsWith front back) :
    Visits H (gapFileHeaders H 0 front) (lastBlockRead, BlockChainImpl.new memory maxBlocks) := by
  cases front with
  | nil =>
    cases back with
    | nil => exact visits_new_nil (hdisk 0) maxBlocks lastBlockRead
    | cons f' back =>
      obtain ⟨f, hf, -⟩ := hends f' rfl
      cases hf
  | cons f front =>
    obtain ⟨hcount, hmaxb⟩ := new_counts memory maxBlocks
    refine visits_front _ lastBlockRead (place_new hdisk hfits maxBlocks) ?_ ?_ hfound hends
    · simp [headersToCome, gapFileHeaders, gapRecordBytes]
    · rw [hcount, hmaxb, length_gapFileHeaders, show (0 : UInt32).toNat = 0 from rfl, Nat.zero_add]
      exact hmax

theorem two_of_three_files_are_visited :
    Visits sampleHashes (gapFileHeaders sampleHashes 0 [zerosFile 0 0, zerosFile 4 4])
      (0, BlockChainImpl.new zerosMemory 3) :=
  the_records_are_visited_up_to_an_abort sampleHashes [zerosFile 0 0, zerosFile 4 4]
    [zerosFile 1 0] zerosMemory 3 0 (fun _ => rfl) fits_zerosFiles (by decide)
    ⟨Or.inr (Or.inr ⟨by decide, by decide⟩), trivial⟩
    (fun f' hf' => ⟨zerosFile 4 4, rfl, Or.inl ⟨by decide, fun hstart => by
      obtain rfl := Option.some.inj hf'
      exact absurd hstart.2 (List.cons_ne_nil _ _)⟩⟩)

/-- Behind the four bytes at the end of the second file the third one does not start
with a record, and the scan is aborted. -/
theorem a_record_behind_a_searched_file_is_missed :
    ¬ Visits sampleHashes (gapFileHeaders sampleHashes 0 zerosFiles)
      (0, BlockChainImpl.new zerosMemory 3) := by
  rw [visits_iff_nothingMissed sampleHashes zerosFiles zerosMemory 3 0 (fun _ => rfl)
    fits_zerosFiles (by decide)]
  rintro ⟨-, hnone | hstart | ⟨hshort, -⟩, -⟩
  · exact absurd (hnone _ List.mem_cons_self) (List.cons_ne_nil _ _)
  · exact absurd hstart.2 (List.cons_ne_nil _ _)
  · exact absurd hshort (by decide)

end bitcoinstats.block_chain

-- The iteration of `KeyValueDatabase.cpp` over the entries of a LevelDB
-- database whose keys start with a prefix. A C string is the list of its bytes
-- without the closing zero.
import BitcoinStats.Library.PrefixOrder
import BitcoinStats.Library.Runs

open prefix_order runs

namespace bitcoinstats.key_value_database

abbrev Entry := List UInt8 × List UInt8

/-! ## LevelDB -/

/-- What the code uses of LevelDB: the iterators of one database. -/
structure LevelDB where
  Iterator : Type
  NewIterator : Iterator
  Seek : Iterator → List UInt8 → Iterator
  SeekToFirst : Iterator → Iterator
  Valid : Iterator → Bool
  key : Iterator → List UInt8
  value : Iterator → List UInt8
  Next : Iterator → Iterator

/-- An iterator walks a fixed map in the order of the bytes of the keys;
`ahead` are the entries from its position on. -/
structure WalksMap (db : LevelDB) (entries : List Entry) (ahead : db.Iterator → List Entry) :
    Prop where
  sorted : entries.Pairwise (fun e e' => e.1 < e'.1)
  valid : ∀ it, db.Valid it = true ↔ ahead it ≠ []
  seek : ∀ it target, ahead (db.Seek it target) = entries.dropWhile (fun e => e.1 < target)
  seekToFirst : ∀ it, ahead (db.SeekToFirst it) = entries
  key : ∀ it e rest, ahead it = e :: rest → db.key it = e.1
  value : ∀ it e rest, ahead it = e :: rest → db.value it = e.2
  next : ∀ it e rest, ahead it = e :: rest → ahead (db.Next it) = rest

/-! ## The two calls -/

/-- `strncmp` on the bytes of two strings, each with a zero behind its end. -/
def strncmp : Nat → List UInt8 → List UInt8 → Int
  | 0, _, _ => 0
  | n + 1, s, t =>
    if s.headD 0 ≠ t.headD 0 then ((s.headD 0).toNat : Int) - (t.headD 0).toNat
    else if s.headD 0 = 0 then 0
    else strncmp n s.tail t.tail

variable (db : LevelDB)

/-- The class on a database that was opened: `mDatabase` is not null. -/
structure KeyValueDatabaseImpl where
  mPrefix : List UInt8
  mIterator : Option db.Iterator

def KeyValueDatabaseImpl.new : KeyValueDatabaseImpl db := { mPrefix := [], mIterator := none }

variable {db}

/-- The new iterator at the first entry that can match. -/
def seekPrefix (db : LevelDB) (mPrefix : List UInt8) : db.Iterator :=
  if mPrefix.length ≠ 0 then db.Seek db.NewIterator mPrefix else db.SeekToFirst db.NewIterator

/-- `begin`, which keeps nothing of an iteration before. A null pointer is `none`. -/
def KeyValueDatabaseImpl.begin (_this : KeyValueDatabaseImpl db) ( searchPrefix : Option (List UInt8)) :
    Bool × KeyValueDatabaseImpl db :=
  let mPrefix := searchPrefix.getD []
  let mIterator := seekPrefix db mPrefix
  if db.Valid mIterator then (true, { mPrefix, mIterator := some mIterator })
  else (false, { mPrefix, mIterator := none })

/-- What `next` leaves in its two strings, and what it returns. -/
structure NextResult (db : LevelDB) where
  ret : Bool
  key : List UInt8
  value : List UInt8
  this : KeyValueDatabaseImpl db

def KeyValueDatabaseImpl.next (this : KeyValueDatabaseImpl db) (key value : List UInt8) :
    NextResult db :=
  match this.mIterator with
  | none => { ret := false, key, value, this }
  | some it =>
    if db.Valid it then
      let key := db.key it
      let value := db.value it
      let mIterator := db.Next it
      if this.mPrefix.length ≠ 0 ∧ strncmp this.mPrefix.length this.mPrefix key ≠ 0 then
        { ret := false, key, value, this := { this with mIterator := none } }
      else { ret := true, key, value, this := { this with mIterator := some mIterator } }
    else { ret := false, key, value, this := { this with mIterator := none } }

/-! ## Runs of calls -/

/-- A call, with what `next` gave if it returned true. -/
inductive Call where
  | begin ( searchPrefix : Option (List UInt8)) (returned : Bool)
  | next (returned : Option Entry)

inductive Step : KeyValueDatabaseImpl db → Call → KeyValueDatabaseImpl db → Prop
  | begin (this : KeyValueDatabaseImpl db) ( searchPrefix : Option (List UInt8)) :
      Step this (.begin searchPrefix (this.begin searchPrefix).1) (this.begin searchPrefix).2
  | next (this : KeyValueDatabaseImpl db) (key value : List UInt8) :
      Step this
        (.next (if (this.next key value).ret then
          some ((this.next key value).key, (this.next key value).value) else none))
        (this.next key value).this

/-! ## The comparison -/

theorem strncmp_cons (n : Nat) (a b : UInt8) (s t : List UInt8) :
    strncmp (n + 1) (a :: s) (b :: t) =
      if a ≠ b then (a.toNat : Int) - b.toNat else if a = 0 then 0 else strncmp n s t := rfl

theorem strncmp_nil (n : Nat) (a : UInt8) (s : List UInt8) :
    strncmp (n + 1) (a :: s) [] =
      if a ≠ 0 then (a.toNat : Int) - 0 else if a = 0 then 0 else strncmp n s [] := rfl

/-- A prefix without a zero is compared to its end. -/
theorem strncmp_eq_zero {p : List UInt8} (hp : 0 ∉ p) (k : List UInt8) :
    strncmp p.length p k = 0 ↔ p <+: k := by
  induction p generalizing k with
  | nil => simp [strncmp]
  | cons a p ih =>
    have ha : a ≠ 0 := by
      rintro rfl
      exact hp List.mem_cons_self
    have hp' : 0 ∉ p := fun hmem => hp (List.mem_cons_of_mem a hmem)
    cases k with
    | nil =>
      have hne : (a.toNat : Int) - 0 ≠ 0 := by
        intro h
        exact ha (UInt8.toNat_inj.mp (by simpa using h))
      rw [List.length_cons, strncmp_nil, if_pos ha]
      exact iff_of_false hne (by simp)
    | cons b k =>
      rw [List.length_cons, strncmp_cons, List.cons_prefix_cons]
      by_cases hab : a = b
      · rw [if_neg (by simpa using hab), if_neg ha, ih hp' k]
        exact ⟨fun h => ⟨hab, h⟩, fun h => h.2⟩
      · have hne : (a.toNat : Int) - b.toNat ≠ 0 := by
          intro h
          exact hab (UInt8.toNat_inj.mp (by omega))
        rw [if_pos hab]
        exact iff_of_false hne (fun h => hab h.1)

/-! ## The entries that are left -/

variable {entries : List Entry} {ahead : db.Iterator → List Entry}

/-- The entries whose keys start with the prefix. -/
def matching (entries : List Entry) ( searchPrefix : List UInt8) : List Entry :=
  entries.filter (fun e => searchPrefix <+: e.1)

/-- The calls of `next` still give the entries of `left`. -/
def Gives (ahead : db.Iterator → List Entry) (this : KeyValueDatabaseImpl db) (left : List Entry) :
    Prop :=
  match this.mIterator with
  | none => left = []
  | some it => left = (ahead it).takeWhile (fun e => this.mPrefix <+: e.1)

theorem ahead_eq_nil (h : WalksMap db entries ahead) {it : db.Iterator}
    (hvalid : ¬ db.Valid it = true) : ahead it = [] := by
  by_contra hne
  exact hvalid ((h.valid it).mpr hne)

theorem ahead_seekPrefix (h : WalksMap db entries ahead) (mPrefix : List UInt8) :
    (ahead (seekPrefix db mPrefix)).takeWhile (fun e => mPrefix <+: e.1) =
      matching entries mPrefix := by
  unfold seekPrefix matching
  by_cases hlength : mPrefix.length = 0
  · obtain rfl := List.eq_nil_of_length_eq_zero hlength
    rw [if_neg (by simp), h.seekToFirst]
    exact takeWhile_prefix_eq_filter h.sorted (fun e _ => List.nil_le e.1)
  · rw [if_pos hlength, h.seek]
    exact prefix_entries h.sorted

theorem begin_gives (h : WalksMap db entries ahead) (this : KeyValueDatabaseImpl db)
    ( searchPrefix : Option (List UInt8)) :
    Gives ahead (this.begin searchPrefix).2 (matching entries (searchPrefix.getD [])) ∧
      (this.begin searchPrefix).2.mPrefix = searchPrefix.getD [] := by
  have hahead := ahead_seekPrefix h (searchPrefix.getD [])
  unfold KeyValueDatabaseImpl.begin
  by_cases hvalid : db.Valid (seekPrefix db (searchPrefix.getD [])) = true
  · rw [if_pos hvalid]
    exact ⟨hahead.symm, rfl⟩
  · rw [ahead_eq_nil h hvalid] at hahead
    rw [if_neg hvalid]
    exact ⟨hahead.symm, rfl⟩

/-- One call gives the first of the entries that are left. -/
theorem next_gives (h : WalksMap db entries ahead) {this : KeyValueDatabaseImpl db}
    {left : List Entry} (hnozero : 0 ∉ this.mPrefix) (hgives : Gives ahead this left)
    (key value : List UInt8) :
    (if (this.next key value).ret then some ((this.next key value).key, (this.next key value).value)
      else none) = left.head? ∧
    Gives ahead (this.next key value).this left.tail ∧
    (this.next key value).this.mPrefix = this.mPrefix := by
  unfold KeyValueDatabaseImpl.next
  cases hit : this.mIterator with
  | none =>
    unfold Gives at hgives
    rw [hit] at hgives
    subst hgives
    simp [Gives, hit]
  | some it =>
    unfold Gives at hgives
    rw [hit] at hgives
    simp only at hgives
    by_cases hvalid : db.Valid it = true
    · obtain ⟨e, rest, hahead⟩ : ∃ e rest, ahead it = e :: rest :=
        List.exists_cons_of_ne_nil ((h.valid it).mp hvalid)
      have hkey := h.key it e rest hahead
      have hvalue := h.value it e rest hahead
      have hnext := h.next it e rest hahead
      rw [hahead] at hgives
      by_cases hmatch : this.mPrefix <+: e.1
      · -- the entry is given: the comparison is only made for a prefix that is not empty
        have hpass : ¬ (this.mPrefix.length ≠ 0 ∧
            strncmp this.mPrefix.length this.mPrefix (db.key it) ≠ 0) := by
          rw [hkey]
          exact fun hstop => hstop.2 ((strncmp_eq_zero hnozero e.1).mpr hmatch)
        rw [List.takeWhile_cons_of_pos (by simpa using hmatch)] at hgives
        subst hgives
        simp only [hvalid, if_true, if_neg hpass, List.head?_cons, List.tail_cons]
        exact ⟨by rw [hkey, hvalue], by simp only [Gives, hnext], trivial⟩
      · have hstop : this.mPrefix.length ≠ 0 ∧
            strncmp this.mPrefix.length this.mPrefix (db.key it) ≠ 0 := by
          rw [hkey]
          refine ⟨?_, fun hzero => hmatch ((strncmp_eq_zero hnozero e.1).mp hzero)⟩
          intro hlength
          rw [List.eq_nil_of_length_eq_zero hlength] at hmatch
          exact hmatch List.nil_prefix
        rw [List.takeWhile_cons_of_neg (by simpa using hmatch)] at hgives
        subst hgives
        simp only [hvalid, if_true, if_pos hstop]
        exact ⟨rfl, rfl, trivial⟩
    · rw [ahead_eq_nil h hvalid] at hgives
      subst hgives
      simp [hvalid, Gives]

/-! ## The calls behind a `begin` -/

/-- `n` calls of `next` that give the entries in turn, and then none. -/
def nextCalls (left : List Entry) (n : Nat) : List Call :=
  (List.range n).map (fun i => .next left[i]?)

theorem next_run (h : WalksMap db entries ahead) {this this' : KeyValueDatabaseImpl db}
    {left : List Entry} {calls : List Call} (hnozero : 0 ∉ this.mPrefix)
    (hgives : Gives ahead this left) (hrun : Run Step this calls this')
    (hcalls : ∀ call ∈ calls, ∃ returned, call = .next returned) :
    calls = nextCalls left calls.length ∧ Gives ahead this' (left.drop calls.length) ∧
      this'.mPrefix = this.mPrefix := by
  induction hrun with
  | nil => exact ⟨rfl, hgives, rfl⟩
  | snoc _ last ih =>
    obtain ⟨hbefore, hgives', hsame⟩ := ih (fun call hmem => hcalls call (List.mem_append_left _ hmem))
    obtain ⟨returned, rfl⟩ := hcalls _ List.mem_concat_self
    cases last with
    | next key value =>
      obtain ⟨hret, hgives'', hsame'⟩ := next_gives h (hsame.symm ▸ hnozero) hgives' key value
      refine ⟨?_, ?_, hsame'.trans hsame⟩
      · rw [hret, List.length_append, List.length_singleton]
        conv_lhs => rw [hbefore]
        simp [nextCalls, List.range_succ]
      · simpa [List.tail_drop] using hgives''

/-- Whatever was called before, the calls of `next` behind `begin` give the
entries whose keys start with the prefix, each once and in order, and then no
more. -/
theorem the_matching_entries_are_given_once_in_order (db : LevelDB) (entries : List Entry)
    (ahead : db.Iterator → List Entry) (h : WalksMap db entries ahead)
    (before calls : List Call) ( searchPrefix : Option (List UInt8)) (returned : Bool)
    (this : KeyValueDatabaseImpl db) (hnozero : 0 ∉ searchPrefix.getD [])
    (hrun : Run Step (KeyValueDatabaseImpl.new db)
      (before ++ .begin searchPrefix returned :: calls) this)
    (hcalls : ∀ call ∈ calls, ∃ returned, call = .next returned) :
    calls = nextCalls (matching entries (searchPrefix.getD [])) calls.length := by
  have hsplit : before ++ Call.begin searchPrefix returned :: calls =
      (before ++ [Call.begin searchPrefix returned]) ++ calls := by simp
  rw [hsplit] at hrun
  obtain ⟨this', hbegin, hnext⟩ := hrun.of_append
  obtain ⟨this'', -, hlast⟩ := hbegin.of_concat
  cases hlast with
  | begin =>
    obtain ⟨hgives, hset⟩ := begin_gives h this'' searchPrefix
    exact (next_run h (hset.symm ▸ hnozero) hgives hnext hcalls).1

/-- The iterators of a sorted list: what is ahead is the iterator. -/
def listDB (entries : List Entry) : LevelDB where
  Iterator := List Entry
  NewIterator := []
  Seek _ target := entries.dropWhile (fun e => e.1 < target)
  SeekToFirst _ := entries
  Valid it := !it.isEmpty
  key it := (it.headD ([], [])).1
  value it := (it.headD ([], [])).2
  Next it := it.tail

theorem listDB_walksMap (hsorted : entries.Pairwise (fun e e' => e.1 < e'.1)) :
    WalksMap (listDB entries) entries id where
  sorted := hsorted
  valid it := by cases it <;> simp [listDB]
  seek _ _ := rfl
  seekToFirst _ := rfl
  key it e rest h := by
    obtain rfl : it = e :: rest := h
    rfl
  value it e rest h := by
    obtain rfl : it = e :: rest := h
    rfl
  next it e rest h := by
    obtain rfl : it = e :: rest := h
    rfl

/-- Keys around the prefix "b", one of them with a zero in it. -/
def sampleEntries : List Entry :=
  [([97, 98], [1]), ([98], [2]), ([98, 0, 7], [3]), ([98, 255], [4]), ([99], [5])]

theorem the_entries_of_b_are_given :
    [Call.next (some ([98], [2])), .next (some ([98, 0, 7], [3])), .next (some ([98, 255], [4])),
      .next none, .next none] = nextCalls (matching sampleEntries [98]) 5 := by
  have hbegin : Run Step (KeyValueDatabaseImpl.new (listDB sampleEntries))
      [.begin none true, .next (some ([97, 98], [1])), .begin (some [98]) true]
      { mPrefix := [98], mIterator := some (sampleEntries.drop 1) } :=
    ((Run.nil.snoc (.begin _ none)).snoc (.next _ [] [])).snoc (.begin _ (some [98]))
  have hnext := ((((hbegin.snoc (.next _ [] [])).snoc (.next _ [] [])).snoc (.next _ [] [])).snoc
    (.next _ [] [])).snoc (.next _ [] [])
  exact the_matching_entries_are_given_once_in_order (listDB sampleEntries) sampleEntries id
    (listDB_walksMap (by decide))
    [.begin none true, .next (some ([97, 98], [1]))] _ (some [98]) true _ (by decide) hnext
    (by simp)

end bitcoinstats.key_value_database

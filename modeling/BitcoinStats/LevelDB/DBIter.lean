-- The iterator of a database (`db/db_iter.cc`): over the entries of an internal
-- iterator, the user keys and values that a snapshot shows, forwards and backwards.
import BitcoinStats.LevelDB.Snapshots

open ordered_cursor

namespace bitcoinstats.leveldb

/-- Forwards the internal iterator is at the entry that is shown; in reverse it is before the entries
of the saved key. -/
structure DBIter (it : Iterator) where
  iter : it.State
  status_ : Status
  saved_key : Slice
  saved_value : Slice
  direction : Direction
  valid : Bool

namespace DBIter

variable {it : Iterator} (c : Comparator) (s : SequenceNumber)

def new (iter : it.State) : DBIter it :=
  { iter, status_ := .OK, saved_key := [], saved_value := [], direction := .kForward, valid := false }

def key (m : DBIter it) : Slice :=
  if m.direction = .kForward then ExtractUserKey (it.key m.iter) else m.saved_key

def value (m : DBIter it) : Slice :=
  if m.direction = .kForward then it.value m.iter else m.saved_value

def status (m : DBIter it) : Status := if m.status_.ok then it.status m.iter else m.status_

def ParseKey (m : DBIter it) : Option ParsedInternalKey × DBIter it :=
  match ParseInternalKey (it.key m.iter) with
  | some ikey => (some ikey, m)
  | none => (none, { m with status_ := .Corruption "corrupted internal key in DBIter" })

/-- What one turn of a loop over the entries does: the loop ends there, or goes on. -/
inductive Turn (α β : Type) where
  | done (result : α)
  | go (next : β)

/-- The body of the loop of `FindNextUserEntry`; what is skipped is the saved key. -/
def nextTurn (skipping : Bool) (m : DBIter it) : Turn (DBIter it) (Bool × DBIter it) :=
  match ParseKey m with
  | (none, m) => .go (skipping, m)
  | (some ikey, m) =>
    if ikey.sequence ≤ s then
      match ikey.type with
      | .kTypeDeletion => .go (true, { m with saved_key := ikey.user_key })
      | .kTypeValue =>
        -- hidden
        if skipping ∧ (c.Compare ikey.user_key m.saved_key).isLE then .go (skipping, m)
        else .done { m with valid := true, saved_key := [] }
    else .go (skipping, m)

/-- The loop, for as many turns at most. -/
def FindNextUserEntry : ℕ → Bool → DBIter it → Option (DBIter it)
  | 0, _, _ => none
  | turns + 1, skipping, m =>
    match nextTurn c s skipping m with
    | .done m => some m
    | .go (skipping, m) =>
      let m := { m with iter := it.next m.iter }
      if it.valid m.iter then FindNextUserEntry turns skipping m
      else some { m with saved_key := [], valid := false }

def Next (turns : ℕ) (m : DBIter it) : Option (DBIter it) :=
  if m.direction = .kReverse then
    let iter := if ¬ it.valid m.iter then it.seekToFirst m.iter else it.next m.iter
    let m := { m with direction := .kForward, iter }
    if ¬ it.valid m.iter then some { m with valid := false, saved_key := [] }
    else FindNextUserEntry c s turns true m
  else FindNextUserEntry c s turns true { m with saved_key := ExtractUserKey (it.key m.iter) }

/-- The body of the loop of `FindPrevUserEntry`. -/
def prevTurn (value_type : ValueType) (m : DBIter it) :
    Turn (ValueType × DBIter it) (ValueType × DBIter it) :=
  match ParseKey m with
  | (none, m) => .go (value_type, m)
  | (some ikey, m) =>
    if ikey.sequence ≤ s then
      if value_type ≠ .kTypeDeletion ∧ c.Compare ikey.user_key m.saved_key = .lt then
        .done (value_type, m)
      else
        match ikey.type with
        | .kTypeDeletion => .go (.kTypeDeletion, { m with saved_key := [], saved_value := [] })
        | .kTypeValue =>
          .go (.kTypeValue,
            { m with saved_key := ExtractUserKey (it.key m.iter), saved_value := it.value m.iter })
    else .go (value_type, m)

def prevLoop : ℕ → ValueType → DBIter it → Option (ValueType × DBIter it)
  | 0, _, _ => none
  | turns + 1, value_type, m =>
    if it.valid m.iter then
      match prevTurn c s value_type m with
      | .done found => some found
      | .go (value_type, m) => prevLoop turns value_type { m with iter := it.prev m.iter }
    else some (value_type, m)

def FindPrevUserEntry (turns : ℕ) (m : DBIter it) : Option (DBIter it) :=
  (prevLoop c s turns .kTypeDeletion m).map fun (value_type, m) =>
    if value_type = .kTypeDeletion then
      { m with valid := false, saved_key := [], saved_value := [], direction := .kForward }
    else { m with valid := true }

/-- The loop of `Prev`: back until the user key is smaller than the saved one, or to the end. -/
def scanBack : ℕ → DBIter it → Option (DBIter it)
  | 0, _ => none
  | turns + 1, m =>
    let m := { m with iter := it.prev m.iter }
    if it.valid m.iter ∧ ¬ c.Compare (ExtractUserKey (it.key m.iter)) m.saved_key = .lt then
      scanBack turns m
    else some m

def Prev (turns : ℕ) (m : DBIter it) : Option (DBIter it) :=
  if m.direction = .kForward then
    (scanBack c turns { m with saved_key := ExtractUserKey (it.key m.iter) }).bind fun m =>
      if ¬ it.valid m.iter then some { m with valid := false, saved_key := [], saved_value := [] }
      else FindPrevUserEntry c s turns { m with direction := .kReverse }
  else FindPrevUserEntry c s turns m

def Seek (turns : ℕ) (m : DBIter it) (target : Slice) : Option (DBIter it) :=
  let saved_key := AppendInternalKey []
    { user_key := target, sequence := s, type := kValueTypeForSeek }
  let m := { m with
    direction := .kForward, saved_value := [], saved_key, iter := it.seek m.iter saved_key }
  if it.valid m.iter then FindNextUserEntry c s turns false m else some { m with valid := false }

def SeekToFirst (turns : ℕ) (m : DBIter it) : Option (DBIter it) :=
  let m := { m with direction := .kForward, saved_value := [], iter := it.seekToFirst m.iter }
  if it.valid m.iter then FindNextUserEntry c s turns false m else some { m with valid := false }

def SeekToLast (turns : ℕ) (m : DBIter it) : Option (DBIter it) :=
  FindPrevUserEntry c s turns
    { m with direction := .kReverse, saved_value := [], iter := it.seekToLast m.iter }

/-- The loops get so many turns; a call that has not come back by then leaves nothing to call. -/
def iterator (it : Iterator) (turns : ℕ) : Iterator where
  State := Option (DBIter it)
  valid m := (m.map DBIter.valid).getD false
  key m := (m.map key).getD []
  value m := (m.map value).getD []
  status m := (m.map status).getD .OK
  seekToFirst m := m.bind (SeekToFirst c s turns)
  seekToLast m := m.bind (SeekToLast c s turns)
  seek m target := m.bind (fun m => Seek c s turns m target)
  next m := m.bind (Next c s turns)
  prev m := m.bind (Prev c s turns)

/-! ## Where it stands -/

variable (S : Set KeyValue) (At : it.State → Option KeyValue → Prop)

/-- Nowhere; at the entry that is shown; or behind the last entry that the snapshot sees of a smaller
key, with the entry that is shown saved. -/
inductive Stands : DBIter it → Option KeyValue → Prop
  | nowhere {m o} (hvalid : m.valid = false) (hstatus : m.status_ = .OK) (hat : At m.iter o) :
      Stands m none
  | forward {m x} (hvalid : m.valid = true) (hstatus : m.status_ = .OK) (hdir : m.direction = .kForward)
      (hat : At m.iter (some x)) (hx : Shows c S s x) : Stands m (some (ExtractUserKey x.1, x.2))
  | reverse {m x o} (hvalid : m.valid = true) (hstatus : m.status_ = .OK)
      (hdir : m.direction = .kReverse) (hkey : m.saved_key = ExtractUserKey x.1)
      (hvalue : m.saved_value = x.2) (hx : Shows c S s x) (hat : At m.iter o)
      (hbefore : Greatest (InternalKeyComparator c).Compare S
        (fun k => c.Compare (ExtractUserKey k) (ExtractUserKey x.1) = .lt ∧ Seen s k) o) :
      Stands m (some (ExtractUserKey x.1, x.2))

end DBIter

end bitcoinstats.leveldb

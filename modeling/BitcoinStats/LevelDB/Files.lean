-- What the code sees of the operating system (`leveldb/status.h`,
-- `leveldb/env.h`): results, files that grow until the disk is full, and files
-- that are read from the front.
import BitcoinStats.LevelDB.Coding

namespace bitcoinstats.leveldb

inductive Status where
  | OK
  | NotFound (msg : String)
  | Corruption (msg : String)
  | NotSupported (msg : String)
  | InvalidArgument (msg : String)
  | IOError (msg : String)
  deriving DecidableEq

def Status.ok (s : Status) : Bool := s = .OK

@[simp] theorem ok_OK : Status.ok .OK = true := rfl
@[simp] theorem ok_IOError (msg : String) : (Status.IOError msg).ok = false := rfl

/-- A file that is written, and the bytes that the disk still has room for. -/
structure WritableFile where
  contents : Slice
  room : Nat

/-- What fits is written, also when not all of it does. The message stands for that of the system. -/
def WritableFile.Append (f : WritableFile) (data : Slice) : Status × WritableFile :=
  if data.length ≤ f.room then
    (.OK, { contents := f.contents ++ data, room := f.room - data.length })
  else (.IOError "disk full", { contents := f.contents ++ data.take f.room, room := 0 })

/-- A file that is read: the bytes from the position on, and how the reads behind them fail, if they
do. -/
structure SequentialFile where
  rest : Slice
  failure : Option Status

def SequentialFile.Read (f : SequentialFile) (n : Nat) : Except Status (Slice × SequentialFile) :=
  match f.failure with
  | some status =>
    if f.rest.length < n then .error status else .ok (f.rest.take n, { f with rest := f.rest.drop n })
  | none => .ok (f.rest.take n, { f with rest := f.rest.drop n })

def SequentialFile.Skip (f : SequentialFile) (n : Nat) : Except Status SequentialFile :=
  match f.failure with
  | some status => if f.rest.length < n then .error status else .ok { f with rest := f.rest.drop n }
  | none => .ok { f with rest := f.rest.drop n }

/-! ## Appending -/

/-- Whether or not it fits, the room goes to the front of what is to be written. -/
theorem Append_contents (f : WritableFile) (data : Slice) :
    (f.Append data).2.contents = f.contents ++ data.take f.room := by
  rw [WritableFile.Append]
  split
  · rename_i h
    rw [List.take_of_length_le h]
  · rfl

theorem Append_room (f : WritableFile) (data : Slice) :
    (f.Append data).2.room = f.room - data.length := by
  rw [WritableFile.Append]
  split
  · rfl
  · simp only
    omega

theorem Append_ok (f : WritableFile) (data : Slice) :
    (f.Append data).1.ok = true ↔ data.length ≤ f.room := by
  rw [WritableFile.Append]
  split
  · rename_i h
    simp [h]
  · rename_i h
    simp [h]

/-- The file took the front of the bytes, as far as the room went. -/
structure Wrote (f f' : WritableFile) (bytes : Slice) : Prop where
  contents : f'.contents = f.contents ++ bytes.take f.room
  room : f'.room = f.room - bytes.length

theorem wrote_nothing (f : WritableFile) : Wrote f f [] where
  contents := by simp
  room := by simp

theorem Append_wrote (f : WritableFile) (data : Slice) : Wrote f (f.Append data).2 data where
  contents := Append_contents f data
  room := Append_room f data

theorem Wrote.trans {f f' f'' : WritableFile} {xs ys : Slice} (h : Wrote f f' xs)
    (h' : Wrote f' f'' ys) : Wrote f f'' (xs ++ ys) where
  contents := by rw [h'.contents, h.contents, h.room, List.append_assoc, List.take_append]
  room := by rw [h'.room, h.room, List.length_append, Nat.sub_sub]

/-- What stands behind bytes that did not fit does not matter. -/
theorem Wrote.of_full {f f' : WritableFile} {xs : Slice} (h : Wrote f f' xs) (hfull : f.room < xs.length)
    (ys : Slice) : Wrote f f' (xs ++ ys) where
  contents := by rw [h.contents, List.take_append_of_le_length hfull.le]
  room := by
    rw [h.room, List.length_append]
    omega

/-- A full file stays as it is. -/
theorem Wrote.trans_full {f f' f'' : WritableFile} {xs ys : Slice} (h : Wrote f f' xs)
    (hfull : f.room < xs.length) (h' : Wrote f' f'' ys) : Wrote f f'' xs where
  contents := by
    have hroom : f'.room = 0 := by
      rw [h.room]
      omega
    rw [h'.contents, hroom, List.take_zero, List.append_nil, h.contents]
  room := by
    rw [h'.room, h.room]
    omega

end bitcoinstats.leveldb

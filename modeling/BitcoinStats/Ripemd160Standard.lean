-- RIPEMD-160 as it is published: two lines of 80 rounds over tables of words,
-- shifts and constants. The 160 operations of `compress` are these rounds,
-- with the registers renamed instead of moved.
import BitcoinStats.Library.BlockHash
import BitcoinStats.Ripemd160

open byte_memory byte_words block_hash

namespace bitcoinstats.ripemd160

/-! ## The standard -/

namespace standard

structure State where
  A : UInt32
  B : UInt32
  C : UInt32
  D : UInt32
  E : UInt32

/-- The function of round `j`. -/
def boolean (j : Nat) : UInt32 → UInt32 → UInt32 → UInt32 :=
  if j < 16 then F else if j < 32 then G else if j < 48 then H else if j < 64 then I else J

def leftConstants : List UInt32 := [0, 0x5a827999, 0x6ed9eba1, 0x8f1bbcdc, 0xa953fd4e]
def rightConstants : List UInt32 := [0x50a28be6, 0x5c4dd124, 0x6d703ef3, 0x7a6d76e9, 0]

/-- The permutation of the words from each 16 rounds to the next. -/
def rho (i : Nat) : Nat := [7, 4, 13, 1, 10, 6, 15, 3, 12, 0, 9, 5, 2, 14, 11, 8].getD i 0

/-- The words of the first 16 rounds on the right. -/
def pi (i : Nat) : Nat := (9 * i + 5) % 16

def leftWord (j : Nat) : Nat := rho^[j / 16] (j % 16)
def rightWord (j : Nat) : Nat := rho^[j / 16] (pi (j % 16))

/-- The shifts of each 16 rounds, word by word. -/
def shifts : List (List UInt32) :=
  [[11, 14, 15, 12, 5, 8, 7, 9, 11, 13, 14, 15, 6, 7, 9, 8],
   [12, 13, 11, 15, 6, 9, 9, 7, 12, 15, 11, 13, 7, 8, 7, 7],
   [13, 15, 14, 11, 7, 7, 6, 8, 13, 14, 13, 12, 5, 5, 6, 9],
   [14, 11, 12, 14, 8, 6, 5, 5, 15, 12, 15, 14, 9, 9, 8, 6],
   [15, 12, 13, 13, 9, 5, 8, 6, 14, 11, 12, 11, 8, 6, 5, 5]]

def shift (j word : Nat) : UInt32 := (shifts.getD (j / 16) []).getD word 0

/-- One round on either side. -/
def round (f : UInt32 → UInt32 → UInt32 → UInt32) (k x s : UInt32) (st : State) : State :=
  let T := ROL (st.A + (f st.B st.C st.D + x + k)) s + st.E
  { A := st.E, B := T, C := st.B, D := ROL st.C 10, E := st.D }

def leftRound (X : List UInt32) (st : State) (j : Nat) : State :=
  round (boolean j) (leftConstants.getD (j / 16) 0) (X.getD (leftWord j) 0) (shift j (leftWord j)) st

def rightRound (X : List UInt32) (st : State) (j : Nat) : State :=
  round (boolean (79 - j)) (rightConstants.getD (j / 16) 0) (X.getD (rightWord j) 0)
    (shift j (rightWord j)) st

def start (h : MDbuf) : State := ⟨h.w0, h.w1, h.w2, h.w3, h.w4⟩

/-- The new chaining words from a block of 64 bytes. -/
def compress (h : MDbuf) (block : List UInt8) : MDbuf :=
  let l := (List.range 80).foldl (leftRound (loadWords block)) (start h)
  let r := (List.range 80).foldl (rightRound (loadWords block)) (start h)
  ⟨h.w1 + l.C + r.D, h.w2 + l.D + r.E, h.w3 + l.E + r.A, h.w4 + l.A + r.B, h.w0 + l.B + r.C⟩

/-- The bit 1, zero bits, and the length in bits with its lowest byte first. -/
def padded (message : List UInt8) : List UInt8 :=
  message ++ 0x80 :: List.replicate ((119 - message.length % 64) % 64) 0 ++
    leBytes 8 (8 * message.length)

def digest (message : List UInt8) : List UInt8 :=
  (absorb compress 64 MDinit (padded message)).words.flatMap storeWord

end standard

/-! ## The operations -/

/-- The variable that stands first in operation `j` of a line. -/
def role (j : Nat) : Register := [Register.aa, .ee, .dd, .cc, .bb].getD (j % 5) .aa

/-- The state of the standard before round `j`, in the variables of a line. -/
def view (j : Nat) (line : Line) : standard.State where
  A := line.get (role j)
  B := line.get (role (j + 4))
  C := line.get (role (j + 3))
  D := line.get (role (j + 2))
  E := line.get (role (j + 1))

def renamed (f : UInt32 → UInt32 → UInt32 → UInt32) (k : UInt32) (j : Nat) (X : List UInt32)
    (x : Nat) (s : UInt32) : Operation :=
  operation f k (role j) (role (j + 4)) (role (j + 3)) (role (j + 2)) (role (j + 1)) X x s

theorem view_renamed (f : UInt32 → UInt32 → UInt32 → UInt32) (k : UInt32) (j : Nat)
    (X : List UInt32) (x : Nat) (s : UInt32) (line : Line) :
    view (j + 1) (renamed f k j X x s line) = standard.round f k (X.getD x 0) s (view j line) := by
  have hj : j % 5 < 5 := Nat.mod_lt _ (by decide)
  have hroles : ∀ i, (j + i) % 5 = (j % 5 + i) % 5 := fun i => by rw [Nat.add_mod, Nat.mod_add_mod]; simp
  simp only [view, renamed, role, hroles, Nat.add_assoc]
  generalize j % 5 = r at hj
  interval_cases r <;> rfl

theorem leftLine_eq (X : List UInt32) :
    leftLine X = (List.range 80).map (fun j => renamed (standard.boolean j)
      (standard.leftConstants.getD (j / 16) 0) j X (standard.leftWord j)
      (standard.shift j (standard.leftWord j))) := by
  rfl

theorem rightLine_eq (X : List UInt32) :
    rightLine X = (List.range 80).map (fun j => renamed (standard.boolean (79 - j))
      (standard.rightConstants.getD (j / 16) 0) j X (standard.rightWord j)
      (standard.shift j (standard.rightWord j))) := by
  rfl

/-- A line of renamed operations is the rounds, seen through the names. -/
theorem view_foldl {op : Nat → Operation} {rd : standard.State → Nat → standard.State}
    (h : ∀ j line, view (j + 1) (op j line) = rd (view j line) j) (n : Nat) (line : Line) :
    view n (((List.range n).map op).foldl (fun line op => op line) line) =
      (List.range n).foldl rd (view 0 line) := by
  induction n with
  | zero => rfl
  | succ n ih =>
    rw [List.range_succ, List.map_append, List.foldl_append, List.foldl_append, ← ih]
    exact h n _

theorem leftLine_view (X : List UInt32) (line : Line) :
    view 80 ((leftLine X).foldl (fun line op => op line) line) =
      (List.range 80).foldl (standard.leftRound X) (view 0 line) := by
  rw [leftLine_eq]
  exact view_foldl (fun j line => view_renamed _ _ j X _ _ line) 80 line

theorem rightLine_view (X : List UInt32) (line : Line) :
    view 80 ((rightLine X).foldl (fun line op => op line) line) =
      (List.range 80).foldl (standard.rightRound X) (view 0 line) := by
  rw [rightLine_eq]
  exact view_foldl (fun j line => view_renamed _ _ j X _ _ line) 80 line

/-- The 160 operations compute the compression function of the standard. -/
theorem compress_eq (h : MDbuf) (block : List UInt8) :
    compress h (loadWords block) = standard.compress h block := by
  have hstart : view 0 h.line = standard.start h := rfl
  have hleft := leftLine_view (loadWords block) h.line
  have hright := rightLine_view (loadWords block) h.line
  rw [hstart] at hleft hright
  rw [standard.compress, ← hleft, ← hright, compress]
  generalize (leftLine (loadWords block)).foldl (fun line op => op line) h.line = left
  generalize (rightLine (loadWords block)).foldl (fun line op => op line) h.line = right
  have hsum : right.dd + (left.cc + h.w1) = h.w1 + left.cc + right.dd := by
    rw [UInt32.add_comm left.cc, UInt32.add_comm]
  rw [hsum]
  rfl

end bitcoinstats.ripemd160

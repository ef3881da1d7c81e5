-- The forward scan of the database iterator: the loop of `FindNextUserEntry`
-- finds the next user key that the snapshot shows.
import BitcoinStats.LevelDB.DBIter

open ordered_cursor

namespace bitcoinstats.leveldb.DBIter

variable {it : Iterator} {c : Comparator} {s : SequenceNumber} {S : Set KeyValue}
  {At : it.State → Option KeyValue → Prop} {Q A : Slice → Prop}

/-- User keys that the scan passes over. -/
def Skipped (c : Comparator) (skipping : Bool) (saved u : Slice) : Prop :=
  skipping = true ∧ (c.Compare u saved).isLE

/-- The scan for a user key with the property `Q`, with the entries of `A` still to come: nothing that it
looks for is passed over or left behind. -/
structure Ahead (c : Comparator) (S : Set KeyValue) (s : SequenceNumber) (Q A : Slice → Prop)
    (skipping : Bool) (saved : Slice) : Prop where
  unskipped : ∀ y, Shows c S s y → Q (ExtractUserKey y.1) →
    ¬ Skipped c skipping saved (ExtractUserKey y.1)
  ahead : ∀ y ∈ S, Seen s y.1 → Q (ExtractUserKey y.1) →
    ¬ Skipped c skipping saved (ExtractUserKey y.1) → A y.1
  wanted : ∀ y ∈ S, A y.1 → ¬ Skipped c skipping saved (ExtractUserKey y.1) → Q (ExtractUserKey y.1)
  behind : skipping = true → ∀ y ∈ S, A y.1 → Seen s y.1 →
    (c.Compare saved (ExtractUserKey y.1)).isLE

/-- What is still to come behind an entry. -/
abbrev after (c : Comparator) (x : KeyValue) (k : Slice) : Prop :=
  (InternalKeyComparator c).Compare x.1 k = .lt

section

variable {x : KeyValue} {skipping : Bool} {saved : Slice}

/-- An entry that the scan may pass: it is newer than the snapshot, or passed over. -/
theorem Ahead.pass (hc : c.Lawful) (hS : Versions c S) (h : Ahead c S s Q A skipping saved) (hx : A x.1)
    (hmem : x ∈ S) (hup : Upward (InternalKeyComparator c).Compare A)
    (hmin : ∀ y ∈ S, A y.1 → ((InternalKeyComparator c).Compare x.1 y.1).isLE)
    (hpass : Seen s x.1 → Skipped c skipping saved (ExtractUserKey x.1)) :
    Ahead c S s Q (after c x) skipping saved := by
  have hinternal := InternalKeyComparator_total hc.total
  have hA : ∀ k, after c x k → A k := fun k hk => hup x.1 k (isLE_of_lt hk) hx
  refine ⟨h.unskipped, ?_, fun y hy hay => h.wanted y hy (hA _ hay),
    fun hskip y hy hay => h.behind hskip y hy (hA _ hay)⟩
  intro y hy hseen hQ hns
  refine lt_of_isLE_of_ne (hmin y hy (h.ahead y hy hseen hQ hns)) fun heq => ?_
  obtain rfl := hS.apart x hmem y hy heq
  exact hns (hpass hseen)

/-- A deletion: the rest of the entries of its user key are passed over from here on. -/
theorem Ahead.delete (hc : c.Lawful) (hS : Versions c S) (h : Ahead c S s Q A skipping saved)
    (hmem : x ∈ S) (hx : A x.1) (hup : Upward (InternalKeyComparator c).Compare A)
    (hmin : ∀ y ∈ S, A y.1 → ((InternalKeyComparator c).Compare x.1 y.1).isLE)
    {p : ParsedInternalKey} (hp : ParseInternalKey x.1 = some p) (hseen : p.sequence ≤ s)
    (htype : p.type = .kTypeDeletion) :
    Ahead c S s Q (after c x) true p.user_key := by
  have htotal := hc.total
  have hinternal := InternalKeyComparator_total hc.total
  have huser := ParseInternalKey_user hp
  have hxseen : Seen s x.1 := (Seen_iff hp).mpr hseen
  have hA : ∀ k, after c x k → A k := fun k hk => hup x.1 k (isLE_of_lt hk) hx
  refine ⟨?_, ?_, ?_, ?_⟩
  · rintro y hy hQ ⟨-, hle⟩
    -- what is shown lies at the deletion or behind it, and its user key is not larger: it is the deletion
    have hay := h.ahead y hy.mem hy.seen hQ (h.unskipped y hy hQ)
    have hxy := hmin y hy.mem hay
    have hle' := user_isLE hxy
    rw [huser] at hle'
    have hsame := hc.same.eq_of_compare (Std.OrientedCmp.isLE_antisymm hle' hle)
    have hyx := hy.first hmem hxseen (huser.trans hsame)
    have heq := hS.apart x hmem y hy.mem (Std.OrientedCmp.isLE_antisymm hxy hyx)
    subst heq
    exact hy.not_deletion hp htype
  · intro y hy hyseen hQ hns
    apply InternalKeyComparator_user_lt
    rw [huser]
    refine Std.OrientedCmp.gt_iff_lt.mp ?_
    by_contra hgt
    exact hns ⟨rfl, Ordering.isLE_iff_ne_gt.mpr hgt⟩
  · intro y hy hay hns
    by_cases hold : Skipped c skipping saved (ExtractUserKey y.1)
    · have hle := h.behind hold.1 x hmem hx hxseen
      rw [huser] at hle
      exact absurd ⟨rfl, Std.TransCmp.isLE_trans hold.2 hle⟩ hns
    · exact h.wanted y hy (hA _ hay) hold
  · intro _ y hy hay _
    have hle := user_isLE (isLE_of_lt hay)
    rwa [huser] at hle

/-- With nothing ahead there is nothing to find. -/
theorem Ahead.nothing (h : Ahead c S s Q A skipping saved) (hnone : ∀ y ∈ S, ¬ A y.1) :
    Least c.Compare (visible c S s) Q none :=
  visible_none fun y hy hQ => hnone y hy.mem (h.ahead y hy.mem hy.seen hQ (h.unskipped y hy hQ))

/-- A value that is seen and not passed over is what the scan looks for. -/
theorem Ahead.found (h : Ahead c S s Q A skipping saved) (hmem : x ∈ S) (hx : A x.1)
    (hmin : ∀ y ∈ S, A y.1 → ((InternalKeyComparator c).Compare x.1 y.1).isLE)
    {p : ParsedInternalKey} (hp : ParseInternalKey x.1 = some p) (hseen : p.sequence ≤ s)
    (htype : p.type = .kTypeValue) (hns : ¬ Skipped c skipping saved (ExtractUserKey x.1)) :
    Shows c S s x ∧ Least c.Compare (visible c S s) Q (some (ExtractUserKey x.1, x.2)) := by
  have hQ := h.wanted x hmem hx hns
  have hshows : Shows c S s x := by
    refine ⟨⟨p, hp, htype⟩, hmem, ⟨rfl, (Seen_iff hp).mpr hseen⟩, ?_⟩
    rintro y hy ⟨huser, hyseen⟩
    exact hmin y hy (h.ahead y hy hyseen (huser ▸ hQ) (huser ▸ hns))
  refine ⟨hshows, visible_least hshows hQ fun y hy hQy => user_isLE ?_⟩
  exact hmin y hy.mem (h.ahead y hy.mem hy.seen hQy (h.unskipped y hy hQy))

end

theorem ParseKey_at (hwalks : Walks (InternalKeyComparator c).Compare S it .OK At) {m : DBIter it}
    {x : KeyValue} (hat : At m.iter (some x)) {p : ParsedInternalKey}
    (hp : ParseInternalKey x.1 = some p) : ParseKey m = (some p, m) := by
  rw [ParseKey, hwalks.key hat, hp]

/-- The entries behind an entry are fewer. -/
theorem card_after (hfinite : S.Finite) (hc : c.Lawful) {x : KeyValue} (hmem : x ∈ S) (hx : A x.1)
    (hup : Upward (InternalKeyComparator c).Compare A) :
    {y ∈ S | after c x y.1}.ncard < {y ∈ S | A y.1}.ncard := by
  have hinternal := InternalKeyComparator_total hc.total
  refine Set.ncard_lt_ncard ?_ (hfinite.subset (Set.sep_subset _ _))
  refine (Set.ssubset_iff_of_subset ?_).mpr ⟨x, ⟨hmem, hx⟩, ?_⟩
  · rintro y ⟨hy, hay⟩
    exact ⟨hy, hup _ _ (isLE_of_lt hay) hx⟩
  · rintro ⟨-, hself⟩
    exact Std.OrientedCmp.not_lt_of_isLE Std.ReflCmp.isLE_rfl hself

theorem FindNextUserEntry_found (hc : c.Lawful) (hS : Versions c S) (hfinite : S.Finite)
    (hwalks : Walks (InternalKeyComparator c).Compare S it .OK At) {turns : ℕ} {skipping : Bool}
    {m : DBIter it} {x : KeyValue} (hdir : m.direction = .kForward) (hstatus : m.status_ = .OK)
    (hat : At m.iter (some x)) (hleast : Least (InternalKeyComparator c).Compare S A (some x))
    (hup : Upward (InternalKeyComparator c).Compare A) (hturns : {y ∈ S | A y.1}.ncard ≤ turns)
    (h : Ahead c S s Q A skipping m.saved_key) :
    ∃ m' o, FindNextUserEntry c s turns skipping m = some m' ∧ Stands c s S At m' o ∧
      Least c.Compare (visible c S s) Q o := by
  have hinternal := InternalKeyComparator_total hc.total
  induction turns generalizing A skipping m x with
  | zero =>
    have hempty := (Set.ncard_eq_zero (hfinite.subset (Set.sep_subset _ _))).mp (Nat.le_zero.mp hturns)
    exact absurd (show x ∈ {y ∈ S | A y.1} from ⟨hleast.mem, hleast.holds⟩) (by rw [hempty]; simp)
  | succ turns ih =>
    obtain ⟨hmem, hx, hmin⟩ := hleast
    obtain ⟨p, hp⟩ := hS.parses x hmem
    have huser := ParseInternalKey_user hp
    have hparse := ParseKey_at hwalks hat hp
    have hcard := card_after hfinite hc hmem hx hup
    -- the way on, from the turn that does not end the loop
    have hgo : ∀ skipping' saved', Ahead c S s Q (after c x) skipping' saved' →
        nextTurn c s skipping m = .go (skipping', { m with saved_key := saved' }) →
        ∃ m' o, FindNextUserEntry c s (turns + 1) skipping m = some m' ∧ Stands c s S At m' o ∧
          Least c.Compare (visible c S s) Q o := by
      intro skipping' saved' hahead hturn
      obtain ⟨o', hat', hleast'⟩ := hwalks.next hat
      rw [FindNextUserEntry, hturn]
      have hvalid := hwalks.valid hat'
      cases o' with
      | none =>
        refine ⟨_, none, if_neg (by simpa using hvalid), .nowhere rfl hstatus hat', ?_⟩
        exact hahead.nothing hleast'
      | some x' =>
        have hvalid' : it.valid (it.next m.iter) = true := hvalid
        simp only [hvalid', if_true]
        exact ih hdir hstatus hat' hleast' (upward_lt x.1)
          (Nat.le_of_lt_succ (hcard.trans_le hturns)) hahead
    by_cases hseen : p.sequence ≤ s
    · cases htype : p.type with
      | kTypeDeletion =>
        refine hgo true p.user_key (h.delete hc hS hmem hx hup hmin hp hseen htype) ?_
        simp only [nextTurn, hparse, if_pos hseen, htype]
      | kTypeValue =>
        by_cases hskip : Skipped c skipping m.saved_key p.user_key
        · refine hgo skipping m.saved_key (h.pass hc hS hx hmem hup hmin fun _ => huser ▸ hskip) ?_
          simp only [nextTurn, hparse, if_pos hseen, htype]
          exact if_pos hskip
        · obtain ⟨hshows, hfound⟩ := h.found hmem hx hmin hp hseen htype (huser ▸ hskip)
          refine ⟨{ m with valid := true, saved_key := [] }, _, ?_, .forward rfl hstatus hdir hat hshows,
            hfound⟩
          have hturn : nextTurn c s skipping m = .done { m with valid := true, saved_key := [] } := by
            simp only [nextTurn, hparse, if_pos hseen, htype]
            exact if_neg hskip
          rw [FindNextUserEntry, hturn]
    · refine hgo skipping m.saved_key
        (h.pass hc hS hx hmem hup hmin fun hsx => absurd ((Seen_iff hp).mp hsx) hseen) ?_
      simp only [nextTurn, hparse, if_neg hseen]

/-! ## The calls that scan forward -/

section

variable (hc : c.Lawful) (hS : Versions c S) (hfinite : S.Finite)
  (hwalks : Walks (InternalKeyComparator c).Compare S it .OK At) {turns : ℕ} (hturns : S.ncard < turns)

include hc hS hfinite hwalks hturns

/-- The scan from a position of the internal iterator, which may be behind the last entry. -/
theorem scan_forward (skipping : Bool) (m m₀ : DBIter it) {o : Option KeyValue}
    (hdir : m.direction = .kForward) (hstatus : m.status_ = .OK) (hat : At m.iter o)
    (hleast : Least (InternalKeyComparator c).Compare S A o)
    (hup : Upward (InternalKeyComparator c).Compare A) (h : Ahead c S s Q A skipping m.saved_key)
    (hnone : Stands c s S At m₀ none) :
    ∃ m' o', (if it.valid m.iter then FindNextUserEntry c s turns skipping m else some m₀) = some m' ∧
      Stands c s S At m' o' ∧ Least c.Compare (visible c S s) Q o' := by
  have hvalid := hwalks.valid hat
  cases o with
  | none => exact ⟨m₀, none, if_neg (by simp [hvalid]), hnone, h.nothing hleast⟩
  | some x =>
    have hfew := Set.ncard_le_ncard (Set.sep_subset S fun y => A y.1) hfinite
    obtain ⟨m', o', hfind, hfound⟩ :=
      FindNextUserEntry_found hc hS hfinite hwalks hdir hstatus hat hleast hup (hfew.trans hturns.le) h
    exact ⟨m', o', by rw [if_pos (by simp [hvalid]), hfind], hfound⟩

theorem SeekToFirst_found {m : DBIter it} {o : Option KeyValue} (hstatus : m.status_ = .OK)
    (hat : At m.iter o) :
    ∃ m' o', SeekToFirst c s turns m = some m' ∧ Stands c s S At m' o' ∧
      Least c.Compare (visible c S s) (fun _ => True) o' := by
  obtain ⟨o', hat', hleast⟩ := hwalks.seekToFirst hat
  refine scan_forward hc hS hfinite hwalks hturns _ _ _ rfl hstatus hat' hleast upward_true ?_
    (.nowhere rfl hstatus hat')
  exact ⟨fun _ _ _ => by simp [Skipped], fun _ _ _ _ _ => trivial, fun _ _ _ _ => trivial, by simp⟩

theorem Seek_found (hs : s ≤ kMaxSequenceNumber) {m : DBIter it} {o : Option KeyValue}
    (hstatus : m.status_ = .OK) (hat : At m.iter o) (target : Slice) :
    ∃ m' o', Seek c s turns m target = some m' ∧ Stands c s S At m' o' ∧
      Least c.Compare (visible c S s) (fun k => ¬ c.Compare k target = .lt) o' := by
  have htotal := hc.total
  have hinternal := InternalKeyComparator_total hc.total
  obtain ⟨o', hat', hleast⟩ := hwalks.seek hat (LookupKey.new target s).internal_key
  refine scan_forward hc hS hfinite hwalks hturns _ _ _ rfl hstatus hat' hleast (upward_not_lt _) ?_
    (.nowhere rfl hstatus hat')
  -- from the lookup key on lie the larger user keys, and of its own the entries that are seen
  have hlookup : ∀ y ∈ S, ∀ q, ParseInternalKey y.1 = some q →
      (¬ (InternalKeyComparator c).Compare y.1 (LookupKey.new target s).internal_key = .lt ↔
        c.Compare target q.user_key = .lt ∨ c.Compare target q.user_key = .eq ∧ q.sequence ≤ s) := by
    intro y _ q hq
    obtain ⟨hy, hle⟩ := ParseInternalKey_eq_some.mp hq
    rw [← LookupKey_isLE hc.total hs hle, ← hy]
    exact ⟨isLE_of_not_lt, fun hle' hlt => Std.OrientedCmp.not_lt_of_isLE hle' hlt⟩
  refine ⟨fun _ _ _ => by simp [Skipped], ?_, ?_, by simp⟩
  · rintro y hy ⟨q, hq, hle⟩ hQ -
    rw [hlookup y hy q hq]
    rw [ParseInternalKey_user hq] at hQ
    rcases Ordering.isLE_iff_eq_lt_or_eq_eq.mp (isLE_of_not_lt hQ) with hlt | heq
    · exact .inl hlt
    · exact .inr ⟨heq, hle⟩
  · intro y hy hay _
    obtain ⟨q, hq⟩ := hS.parses y hy
    rw [hlookup y hy q hq] at hay
    rw [ParseInternalKey_user hq]
    apply Std.OrientedCmp.not_lt_of_isLE
    rcases hay with hlt | ⟨heq, -⟩
    · exact isLE_of_lt hlt
    · simp [heq]

/-- Both ways of going on behind an entry that is shown pass over the rest of its user key. -/
theorem Next_found {m : DBIter it} {e : KeyValue} (h : Stands c s S At m (some e)) :
    ∃ m' o', Next c s turns m = some m' ∧ Stands c s S At m' o' ∧
      Least c.Compare (visible c S s) (fun k => c.Compare e.1 k = .lt) o' := by
  have htotal := hc.total
  have hinternal := InternalKeyComparator_total hc.total
  have hskip : ∀ u v : Slice, ¬ Skipped c true u v ↔ c.Compare u v = .lt := by
    intro u v
    rw [Skipped, ← Std.OrientedCmp.gt_iff_lt, Ordering.isLE_iff_ne_gt]
    simp
  cases h with
  | @forward x hvalid hstatus hdir hat hx =>
    have hup : Upward (InternalKeyComparator c).Compare
        (fun k => ((InternalKeyComparator c).Compare x.1 k).isLE) :=
      fun a b hab ha => Std.TransCmp.isLE_trans ha hab
    have hleast : Least (InternalKeyComparator c).Compare S
        (fun k => ((InternalKeyComparator c).Compare x.1 k).isLE) (some x) :=
      ⟨hx.mem, Std.ReflCmp.isLE_rfl, fun _ _ hle => hle⟩
    have hkey := hwalks.key hat
    have hat' := hwalks.valid hat
    rw [Next, if_neg (by simp [hdir]), hkey]
    have hscan := scan_forward hc hS hfinite hwalks hturns (s := s)
      (Q := fun k => c.Compare (ExtractUserKey x.1) k = .lt) true
      { m with saved_key := ExtractUserKey x.1 } { m with valid := false } hdir hstatus hat hleast hup
      ?_ (.nowhere rfl hstatus hat)
    · simpa only [hat', Option.isSome_some, if_true] using hscan
    · refine ⟨fun y _ hQ => (hskip _ _).mpr hQ, ?_, fun y _ _ hns => (hskip _ _).mp hns, ?_⟩
      · intro y _ _ hQ _
        exact isLE_of_lt (InternalKeyComparator_user_lt hQ)
      · intro _ y _ hay _
        exact user_isLE hay
  | @reverse x o hvalid hstatus hdir hkey hvalue hx hat hbefore =>
    -- one step on; what lies between there and the entries of the key is not seen
    obtain ⟨A, o', hat', hleast, hup, hahead, hbehind⟩ : ∃ (A : Slice → Prop) (o' : Option KeyValue),
        At (if ¬ it.valid m.iter then it.seekToFirst m.iter else it.next m.iter) o' ∧
        Least (InternalKeyComparator c).Compare S A o' ∧ Upward (InternalKeyComparator c).Compare A ∧
        (∀ y ∈ S, c.Compare (ExtractUserKey x.1) (ExtractUserKey y.1) = .lt → A y.1) ∧
        ∀ y ∈ S, A y.1 → Seen s y.1 → (c.Compare (ExtractUserKey x.1) (ExtractUserKey y.1)).isLE := by
      have hmvalid := hwalks.valid hat
      cases o with
      | none =>
        obtain ⟨o', hat', hleast⟩ := hwalks.seekToFirst hat
        refine ⟨fun _ => True, o', ?_, hleast, upward_true, fun _ _ _ => trivial, ?_⟩
        · rw [if_pos (by simp [hmvalid])]
          exact hat'
        · intro y hy _ hseen
          exact isLE_of_not_lt fun hlt => hbefore y hy ⟨hlt, hseen⟩
      | some z =>
        obtain ⟨o', hat', hleast⟩ := hwalks.next hat
        refine ⟨_, o', ?_, hleast, upward_lt z.1, ?_, ?_⟩
        · rw [if_neg (by simp [hmvalid])]
          exact hat'
        · intro y _ hlt
          exact InternalKeyComparator_user_lt (Std.TransCmp.lt_trans hbefore.holds.1 hlt)
        · intro y hy hzy hseen
          refine isLE_of_not_lt fun hlt => ?_
          exact Std.OrientedCmp.not_lt_of_isLE (hbefore.2.2 y hy ⟨hlt, hseen⟩) hzy
    rw [Next, if_pos hdir]
    have hscan := scan_forward hc hS hfinite hwalks hturns (s := s)
      (Q := fun k => c.Compare (ExtractUserKey x.1) k = .lt) true
      { m with
        direction := .kForward
        iter := if ¬ it.valid m.iter then it.seekToFirst m.iter else it.next m.iter }
      { m with
        direction := .kForward
        iter := if ¬ it.valid m.iter then it.seekToFirst m.iter else it.next m.iter
        valid := false, saved_key := [] } rfl hstatus hat' hleast hup ?_ (.nowhere rfl hstatus hat')
    · simp only [ite_not]
      simpa only [ite_not] using hscan
    · rw [hkey]
      refine ⟨fun y _ hQ => (hskip _ _).mpr hQ, fun y hy _ hQ _ => hahead y hy hQ,
        fun y _ _ hns => (hskip _ _).mp hns, fun _ => hbehind⟩

end

end bitcoinstats.leveldb.DBIter

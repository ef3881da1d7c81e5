-- The backward scan of the database iterator: the loop of `FindPrevUserEntry` saves
-- the last entry that the snapshot shows before where it starts.
import BitcoinStats.LevelDB.DBIterForward

open ordered_cursor

namespace bitcoinstats.leveldb.DBIter

variable {it : Iterator} {c : Comparator} {s : SequenceNumber} {S : Set KeyValue}
  {At : it.State → Option KeyValue → Prop} {Q A : Slice → Prop}

/-- A property that earlier keys inherit. -/
abbrev Downward (cmp : Slice → Slice → Ordering) (P : Slice → Prop) : Prop :=
  Upward (fun a b => cmp b a) P

/-- The last entry that was passed and is seen: a value, and the newest so far of the last user key that can
be shown. -/
structure Candidate (c : Comparator) (S : Set KeyValue) (s : SequenceNumber) (Q A : Slice → Prop)
    (e : KeyValue) : Prop where
  mem : e ∈ S
  passed : ¬ A e.1
  wanted : Q (ExtractUserKey e.1)
  value : ∃ p, ParseInternalKey e.1 = some p ∧ p.type = .kTypeValue
  seen : Seen s e.1
  newest : ∀ y ∈ S, ¬ A y.1 → Seen s y.1 → Q (ExtractUserKey y.1) →
    ((InternalKeyComparator c).Compare e.1 y.1).isLE
  last : ∀ y, Shows c S s y → Q (ExtractUserKey y.1) → A y.1 ∨ ExtractUserKey y.1 = ExtractUserKey e.1

/-- The scan for a user key with the property `Q`, with the entries of `A` still to come: either nothing
that was passed is shown, or there is a candidate, and it is saved. -/
inductive Behind (c : Comparator) (S : Set KeyValue) (s : SequenceNumber) (Q A : Slice → Prop) :
    ValueType → Slice → Slice → Prop
  | nothing {key value} (h : ∀ y, Shows c S s y → Q (ExtractUserKey y.1) → A y.1) :
      Behind c S s Q A .kTypeDeletion key value
  | saved {e} (h : Candidate c S s Q A e) : Behind c S s Q A .kTypeValue (ExtractUserKey e.1) e.2

abbrev before (c : Comparator) (x : KeyValue) (k : Slice) : Prop :=
  (InternalKeyComparator c).Compare k x.1 = .lt

section

variable {x : KeyValue} (hc : c.Lawful) (hS : Versions c S) (hmem : x ∈ S) (hx : A x.1)
  (hdown : Downward (InternalKeyComparator c).Compare A)
  (hmax : ∀ y ∈ S, A y.1 → ((InternalKeyComparator c).Compare y.1 x.1).isLE)

include hS hmem hmax in
theorem eq_or_before (y : KeyValue) (hy : y ∈ S) (hay : A y.1) : y = x ∨ before c x y.1 := by
  by_cases heq : (InternalKeyComparator c).Compare y.1 x.1 = .eq
  · exact .inl (hS.apart y hy x hmem heq)
  · exact .inr (lt_of_isLE_of_ne (hmax y hy hay) heq)

include hx hdown in
theorem ahead_of_before {k : Slice} (hk : before c x k) : A k := hdown x.1 k (isLE_of_lt hk) hx

include hS hmem hx hdown hmax in
/-- An entry that the snapshot does not see changes nothing. -/
theorem Behind.pass {value_type : ValueType} {key value : Slice} (h : Behind c S s Q A value_type key value)
    (hseen : ¬ Seen s x.1) : Behind c S s Q (before c x) value_type key value := by
  have hne : ∀ y, Seen s y.1 → y ≠ x := fun y hy heq => hseen (heq ▸ hy)
  cases h with
  | nothing h =>
    refine .nothing fun y hy hQ => ?_
    exact (eq_or_before hS hmem hmax y hy.mem (h y hy hQ)).resolve_left (hne y hy.seen)
  | @saved e h =>
    refine .saved
      { h with passed := fun hb => h.passed (ahead_of_before hx hdown hb), newest := ?_, last := ?_ }
    · intro y hy hnb hyseen hQ
      refine h.newest y hy (fun hay => ?_) hyseen hQ
      exact (eq_or_before hS hmem hmax y hy hay).elim (hne y hyseen) hnb
    · intro y hy hQ
      refine (h.last y hy hQ).imp_left fun hay => ?_
      exact (eq_or_before hS hmem hmax y hy.mem hay).resolve_left (hne y hy.seen)

include hc hx hdown in
/-- Where the scan goes on at a candidate, the entry has the user key of the candidate. -/
theorem Candidate.same_user {e : KeyValue} (h : Candidate c S s Q A e)
    (hgo : ¬ c.Compare (ExtractUserKey x.1) (ExtractUserKey e.1) = .lt) :
    ExtractUserKey x.1 = ExtractUserKey e.1 := by
  have htotal := hc.total
  have hinternal := InternalKeyComparator_total hc.total
  have hxe : ((InternalKeyComparator c).Compare x.1 e.1).isLE := by
    refine isLE_of_not_lt fun hlt => h.passed (hdown x.1 e.1 (isLE_of_lt hlt) hx)
  exact hc.same.eq_of_compare (Std.OrientedCmp.isLE_antisymm (user_isLE hxe) (isLE_of_not_lt hgo))

include hc hS hmem hx hdown hmax in
/-- A deletion hides what was passed of its user key. -/
theorem Behind.delete {value_type : ValueType} {key value : Slice} (h : Behind c S s Q A value_type key value)
    (hgo : ¬ (value_type ≠ .kTypeDeletion ∧ c.Compare (ExtractUserKey x.1) key = .lt))
    {p : ParsedInternalKey} (hp : ParseInternalKey x.1 = some p) (hseen : p.sequence ≤ s)
    (htype : p.type = .kTypeDeletion) (key' value' : Slice) :
    Behind c S s Q (before c x) .kTypeDeletion key' value' := by
  refine .nothing fun y hy hQ => ?_
  have hne : y ≠ x := fun heq => (heq ▸ hy).not_deletion hp htype
  suffices hay : A y.1 from (eq_or_before hS hmem hmax y hy.mem hay).resolve_left hne
  cases h with
  | nothing h => exact h y hy hQ
  | @saved e h =>
    rcases h.last y hy hQ with hay | huser
    · exact hay
    · have hsame := h.same_user hc hx hdown fun hlt => hgo ⟨by simp, hlt⟩
      exact hdown x.1 y.1 (hy.first hmem ((Seen_iff hp).mpr hseen) (hsame.trans huser.symm)) hx

include hc hS hmem hx hdown hmax in
/-- A value becomes the candidate. -/
theorem Behind.save {value_type : ValueType} {key value : Slice} (h : Behind c S s Q A value_type key value)
    (hgo : ¬ (value_type ≠ .kTypeDeletion ∧ c.Compare (ExtractUserKey x.1) key = .lt))
    (hwanted : Q (ExtractUserKey x.1)) {p : ParsedInternalKey} (hp : ParseInternalKey x.1 = some p)
    (hseen : p.sequence ≤ s) (htype : p.type = .kTypeValue) :
    Behind c S s Q (before c x) .kTypeValue (ExtractUserKey x.1) x.2 := by
  have hinternal := InternalKeyComparator_total hc.total
  refine .saved
    { mem := hmem, passed := fun hself => Std.OrientedCmp.not_lt_of_isLE Std.ReflCmp.isLE_rfl hself
      wanted := hwanted, value := ⟨p, hp, htype⟩, seen := (Seen_iff hp).mpr hseen
      newest := fun y _ hnb _ _ => isLE_of_not_lt hnb
      last := fun y hy hQ => ?_ }
  have hstep : A y.1 → before c x y.1 ∨ ExtractUserKey y.1 = ExtractUserKey x.1 := by
    intro hay
    rcases eq_or_before hS hmem hmax y hy.mem hay with rfl | hb
    · exact .inr rfl
    · exact .inl hb
  cases h with
  | nothing h => exact hstep (h y hy hQ)
  | @saved e h =>
    rcases h.last y hy hQ with hay | huser
    · exact hstep hay
    · have hsame := h.same_user hc hx hdown fun hlt => hgo ⟨by simp, hlt⟩
      exact .inr (huser.trans hsame.symm)

end

/-- The entries before an entry are fewer. -/
theorem card_before (hfinite : S.Finite) (hc : c.Lawful) {x : KeyValue} (hmem : x ∈ S) (hx : A x.1)
    (hdown : Downward (InternalKeyComparator c).Compare A) :
    {y ∈ S | before c x y.1}.ncard < {y ∈ S | A y.1}.ncard := by
  have hinternal := InternalKeyComparator_total hc.total
  refine Set.ncard_lt_ncard ?_ (hfinite.subset (Set.sep_subset _ _))
  refine (Set.ssubset_iff_of_subset ?_).mpr ⟨x, ⟨hmem, hx⟩, ?_⟩
  · rintro y ⟨hy, hb⟩
    exact ⟨hy, ahead_of_before hx hdown hb⟩
  · rintro ⟨-, hself⟩
    exact Std.OrientedCmp.not_lt_of_isLE Std.ReflCmp.isLE_rfl hself

/-- Where the loop ends: with nothing to show, or with the candidate saved and the internal iterator
behind the last entry that is seen of a smaller user key. -/
inductive Ends (c : Comparator) (S : Set KeyValue) (s : SequenceNumber) (Q : Slice → Prop)
    (At : it.State → Option KeyValue → Prop) : ValueType → DBIter it → Prop
  | nothing {m o} (hat : At m.iter o) (h : ∀ y, Shows c S s y → ¬ Q (ExtractUserKey y.1)) :
      Ends c S s Q At .kTypeDeletion m
  | saved {m x o} (hx : Shows c S s x) (hkey : m.saved_key = ExtractUserKey x.1)
      (hvalue : m.saved_value = x.2) (hat : At m.iter o)
      (hbefore : Greatest (InternalKeyComparator c).Compare S
        (fun k => c.Compare (ExtractUserKey k) (ExtractUserKey x.1) = .lt ∧ Seen s k) o)
      (hgreatest : Greatest c.Compare (visible c S s) Q (some (ExtractUserKey x.1, x.2))) :
      Ends c S s Q At .kTypeValue m

/-- A candidate is shown once what is left has smaller user keys. -/
theorem Candidate.shows (hc : c.Lawful) {e : KeyValue} (h : Candidate c S s Q A e)
    (hsmaller : ∀ y ∈ S, A y.1 → c.Compare (ExtractUserKey y.1) (ExtractUserKey e.1) = .lt) :
    Shows c S s e ∧ Greatest c.Compare (visible c S s) Q (some (ExtractUserKey e.1, e.2)) := by
  have htotal := hc.total
  have hself : c.Compare (ExtractUserKey e.1) (ExtractUserKey e.1) = .eq := Std.ReflCmp.compare_self
  have hshows : Shows c S s e := by
    refine ⟨h.value, h.mem, ⟨rfl, h.seen⟩, ?_⟩
    rintro y hy ⟨huser, hseen⟩
    refine h.newest y hy (fun hay => ?_) hseen (huser ▸ h.wanted)
    have hlt := hsmaller y hy hay
    rw [huser, hself] at hlt
    cases hlt
  refine ⟨hshows, visible_greatest hshows h.wanted fun y hy hQ => ?_⟩
  rcases h.last y hy hQ with hay | huser
  · exact isLE_of_lt (hsmaller y hy.mem hay)
  · simp [huser, hself]

theorem prevLoop_ends (hc : c.Lawful) (hS : Versions c S) (hfinite : S.Finite)
    (hwalks : Walks (InternalKeyComparator c).Compare S it .OK At) {turns : ℕ} {value_type : ValueType}
    {m : DBIter it} {o : Option KeyValue} (hdown : Downward (InternalKeyComparator c).Compare A)
    (hQ : Downward c.Compare Q) (hwanted : ∀ y ∈ S, A y.1 → Q (ExtractUserKey y.1))
    (hat : At m.iter o) (hgreatest : Greatest (InternalKeyComparator c).Compare S A o)
    (hturns : {y ∈ S | A y.1}.ncard < turns)
    (h : Behind c S s Q A value_type m.saved_key m.saved_value) :
    ∃ value_type' m', prevLoop c s turns value_type m = some (value_type', m') ∧
      m'.status_ = m.status_ ∧ m'.direction = m.direction ∧ Ends c S s Q At value_type' m' := by
  have htotal := hc.total
  have hinternal := InternalKeyComparator_total hc.total
  induction turns generalizing A value_type m o with
  | zero => omega
  | succ turns ih =>
    have hvalid := hwalks.valid hat
    cases o with
    | none =>
      refine ⟨value_type, m, by rw [prevLoop, if_neg (by simp [hvalid])], rfl, rfl, ?_⟩
      generalize hkey : m.saved_key = key at h
      generalize hvalue : m.saved_value = value at h
      cases h with
      | nothing h => exact .nothing hat fun y hy hQy => hgreatest y hy.mem (h y hy hQy)
      | @saved e h =>
        obtain ⟨hshows, hmost⟩ := h.shows hc fun y hy hay => absurd hay (hgreatest y hy)
        refine .saved hshows hkey hvalue hat ?_ hmost
        rintro y hy ⟨hlt, hseen⟩
        have hle := h.newest y hy (hgreatest y hy) hseen (hQ _ _ (isLE_of_lt hlt) h.wanted)
        exact Std.OrientedCmp.not_lt_of_isLE (user_isLE hle) hlt
    | some x =>
      obtain ⟨hmem, hx, hmax⟩ := hgreatest
      obtain ⟨p, hp⟩ := hS.parses x hmem
      have huser := ParseInternalKey_user hp
      have hparse := ParseKey_at hwalks hat hp
      have hcard := card_before hfinite hc hmem hx hdown
      have hvalid' : it.valid m.iter = true := hvalid
      -- the way on, from the turn that does not end the loop
      have hgo : ∀ value_type' key value, Behind c S s Q (before c x) value_type' key value →
          prevTurn c s value_type m = .go (value_type', { m with saved_key := key, saved_value := value }) →
          ∃ value_type' m', prevLoop c s (turns + 1) value_type m = some (value_type', m') ∧
            m'.status_ = m.status_ ∧ m'.direction = m.direction ∧ Ends c S s Q At value_type' m' := by
        intro value_type' key value hbehind hturn
        obtain ⟨o', hat', hgreatest'⟩ := hwalks.prev hat
        rw [prevLoop, if_pos hvalid', hturn]
        exact ih (m := { m with saved_key := key, saved_value := value, iter := it.prev m.iter })
          (upward_lt x.1) (fun y hy hb => hwanted y hy (ahead_of_before hx hdown hb)) hat' hgreatest'
          (hcard.trans_le (Nat.le_of_lt_succ hturns)) hbehind
      by_cases hseen : p.sequence ≤ s
      · by_cases hend : value_type ≠ .kTypeDeletion ∧
            c.Compare (ExtractUserKey x.1) m.saved_key = .lt
        · have hturn : prevTurn c s value_type m = .done (value_type, m) := by
            simp only [prevTurn, hparse, if_pos hseen]
            exact if_pos (huser ▸ hend)
          refine ⟨value_type, m, by rw [prevLoop, if_pos hvalid', hturn], rfl, rfl, ?_⟩
          generalize hkey : m.saved_key = key at h hend
          generalize hvalue : m.saved_value = value at h
          cases h with
          | nothing h => exact absurd rfl hend.1
          | @saved e h =>
            have hxe := hend.2
            obtain ⟨hshows, hmost⟩ := h.shows hc fun y hy hay =>
              Std.TransCmp.lt_of_isLE_of_lt (user_isLE (hmax y hy hay)) hxe
            refine .saved hshows hkey hvalue hat ?_ hmost
            refine ⟨hmem, ⟨hxe, (Seen_iff hp).mpr hseen⟩, ?_⟩
            rintro y hy ⟨hlt, hyseen⟩
            refine hmax y hy ?_
            by_contra hay
            have hle := h.newest y hy hay hyseen (hQ _ _ (isLE_of_lt hlt) h.wanted)
            exact Std.OrientedCmp.not_lt_of_isLE (user_isLE hle) hlt
        · have hend' : ¬ (value_type ≠ .kTypeDeletion ∧ c.Compare p.user_key m.saved_key = .lt) :=
            huser ▸ hend
          cases htype : p.type with
          | kTypeDeletion =>
            refine hgo _ [] [] (h.delete hc hS hmem hx hdown hmax hend hp hseen htype [] []) ?_
            simp only [prevTurn, hparse, if_pos hseen, if_neg hend', htype]
          | kTypeValue =>
            refine hgo _ _ _ (h.save hc hS hmem hx hdown hmax hend (hwanted x hmem hx) hp hseen htype) ?_
            simp only [prevTurn, hparse, if_pos hseen, if_neg hend', htype, hwalks.key hat,
              hwalks.value hat]
      · refine hgo _ _ _ (h.pass hS hmem hx hdown hmax fun hsx => hseen ((Seen_iff hp).mp hsx)) ?_
        simp only [prevTurn, hparse, if_neg hseen]

/-! ## The calls that scan backward -/

section

variable (hc : c.Lawful) (hS : Versions c S) (hfinite : S.Finite)
  (hwalks : Walks (InternalKeyComparator c).Compare S it .OK At) {turns : ℕ} (hturns : S.ncard < turns)

include hc hS hfinite hwalks hturns

theorem FindPrevUserEntry_found {m : DBIter it} {o : Option KeyValue} (hdir : m.direction = .kReverse)
    (hstatus : m.status_ = .OK) (hdown : Downward (InternalKeyComparator c).Compare A)
    (hQ : Downward c.Compare Q) (hwanted : ∀ y ∈ S, A y.1 → Q (ExtractUserKey y.1))
    (hat : At m.iter o) (hgreatest : Greatest (InternalKeyComparator c).Compare S A o)
    (h : ∀ y, Shows c S s y → Q (ExtractUserKey y.1) → A y.1) :
    ∃ m' o', FindPrevUserEntry c s turns m = some m' ∧ Stands c s S At m' o' ∧
      Greatest c.Compare (visible c S s) Q o' := by
  have hfew := Set.ncard_le_ncard (Set.sep_subset S fun y => A y.1) hfinite
  obtain ⟨value_type, m', hloop, hstatus', hdir', hends⟩ :=
    prevLoop_ends hc hS hfinite hwalks hdown hQ hwanted hat hgreatest (hfew.trans_lt hturns)
      (.nothing h)
  rw [FindPrevUserEntry, hloop]
  cases hends with
  | nothing hat' hnone =>
    exact ⟨_, none, rfl, .nowhere rfl (hstatus'.trans hstatus) hat', visible_none hnone⟩
  | saved hx hkey hvalue hat' hbefore hmost =>
    exact ⟨_, _, rfl,
      .reverse rfl (hstatus'.trans hstatus) (hdir'.trans hdir) hkey hvalue hx hat' hbefore, hmost⟩

theorem SeekToLast_found {m : DBIter it} {o : Option KeyValue} (hstatus : m.status_ = .OK)
    (hat : At m.iter o) :
    ∃ m' o', SeekToLast c s turns m = some m' ∧ Stands c s S At m' o' ∧
      Greatest c.Compare (visible c S s) (fun _ => True) o' := by
  obtain ⟨o', hat', hgreatest⟩ := hwalks.seekToLast hat
  exact FindPrevUserEntry_found hc hS hfinite hwalks hturns rfl hstatus upward_true upward_true
    (fun _ _ _ => trivial) hat' hgreatest fun _ _ _ => trivial

omit hS hfinite hturns in
/-- Back to before the entries of the saved user key. -/
theorem scanBack_stops {m : DBIter it} {z : KeyValue} {u : Slice} (hkey : m.saved_key = u)
    (hat : At m.iter (some z)) (hz : ¬ c.Compare (ExtractUserKey z.1) u = .lt) (turns : ℕ)
    (hfinite : S.Finite) (hturns : {y ∈ S | before c z y.1}.ncard < turns) :
    ∃ iter o, scanBack c turns m = some { m with iter } ∧ At iter o ∧
      Greatest (InternalKeyComparator c).Compare S (fun k => c.Compare (ExtractUserKey k) u = .lt) o := by
  have htotal := hc.total
  have hinternal := InternalKeyComparator_total hc.total
  induction turns generalizing m z with
  | zero => omega
  | succ turns ih =>
    obtain ⟨o, hat', hgreatest⟩ := hwalks.prev hat
    have hvalid := hwalks.valid hat'
    have hbefore : ∀ y : KeyValue, c.Compare (ExtractUserKey y.1) u = .lt → before c z y.1 :=
      fun y hlt => InternalKeyComparator_user_lt (Std.TransCmp.lt_of_lt_of_isLE hlt (isLE_of_not_lt hz))
    cases o with
    | none =>
      refine ⟨it.prev m.iter, none, ?_, hat', fun y hy hlt => hgreatest y hy (hbefore y hlt)⟩
      rw [scanBack, if_neg (by simp [hvalid])]
    | some w =>
      have hvalid' : it.valid (it.prev m.iter) = true := hvalid
      by_cases hlt : c.Compare (ExtractUserKey w.1) u = .lt
      · refine ⟨it.prev m.iter, some w, ?_, hat', hgreatest.mem, hlt, ?_⟩
        · rw [scanBack, if_neg]
          rw [hwalks.key hat', hkey]
          exact fun h => h.2 hlt
        · exact fun y hy hylt => hgreatest.2.2 y hy (hbefore y hylt)
      · have hcard := card_before hfinite hc hgreatest.mem hgreatest.holds (upward_lt z.1)
        have hscan := ih (m := { m with iter := it.prev m.iter }) hkey hat' hlt
          (hcard.trans_le (Nat.le_of_lt_succ hturns))
        rw [scanBack, if_pos]
        · exact hscan
        · rw [hwalks.key hat', hkey]
          exact ⟨hvalid', hlt⟩

theorem Prev_found {m : DBIter it} {e : KeyValue} (h : Stands c s S At m (some e)) :
    ∃ m' o', Prev c s turns m = some m' ∧ Stands c s S At m' o' ∧
      Greatest c.Compare (visible c S s) (fun k => c.Compare k e.1 = .lt) o' := by
  have htotal := hc.total
  have hinternal := InternalKeyComparator_total hc.total
  cases h with
  | @forward x hvalid hstatus hdir hat hx =>
    have hself : ¬ c.Compare (ExtractUserKey x.1) (ExtractUserKey x.1) = .lt :=
      Std.OrientedCmp.not_lt_of_isLE Std.ReflCmp.isLE_rfl
    have hfew := Set.ncard_le_ncard (Set.sep_subset S fun y => before c x y.1) hfinite
    obtain ⟨iter, o, hscan, hat', hgreatest⟩ := scanBack_stops hc hwalks
      (m := { m with saved_key := ExtractUserKey x.1 }) rfl hat hself turns hfinite (hfew.trans_lt hturns)
    have hkey := hwalks.key hat
    have hvalid' := hwalks.valid hat'
    rw [Prev, if_pos hdir, hkey, hscan, Option.bind_some]
    cases o with
    | none =>
      refine ⟨_, none, if_pos (by simp [hvalid']), .nowhere rfl hstatus hat', ?_⟩
      exact visible_none fun y hy hlt => hgreatest y hy.mem hlt
    | some w =>
      rw [if_neg (by simp [hvalid'])]
      exact FindPrevUserEntry_found hc hS hfinite hwalks hturns rfl hstatus
        (fun a b hab ha => Std.TransCmp.lt_of_isLE_of_lt (user_isLE hab) ha) (upward_lt _)
        (fun _ _ hlt => hlt) hat' hgreatest fun _ _ hlt => hlt
  | @reverse x o hvalid hstatus hdir hkey hvalue hx hat hbefore =>
    rw [Prev, if_neg (by simp [hdir])]
    refine FindPrevUserEntry_found hc hS hfinite hwalks hturns hdir hstatus
      (A := fun k => ∃ z, o = some z ∧ ((InternalKeyComparator c).Compare k z.1).isLE) ?_ (upward_lt _) ?_
      hat ?_ ?_
    · rintro a b hab ⟨z, rfl, hle⟩
      exact ⟨z, rfl, Std.TransCmp.isLE_trans hab hle⟩
    · rintro y hy ⟨z, rfl, hle⟩
      exact Std.TransCmp.lt_of_isLE_of_lt (user_isLE hle) hbefore.holds.1
    · cases o with
      | none =>
        rintro y hy ⟨z, hz, -⟩
        cases hz
      | some z =>
        refine ⟨hbefore.mem, ⟨z, rfl, Std.ReflCmp.isLE_rfl⟩, ?_⟩
        rintro y hy ⟨w, hw, hle⟩
        cases hw
        exact hle
    · intro y hy hlt
      cases o with
      | none => exact absurd ⟨hlt, hy.seen⟩ (hbefore y hy.mem)
      | some z => exact ⟨z, rfl, hbefore.2.2 y hy.mem ⟨hlt, hy.seen⟩⟩

end

/-! ## The iterator -/

/-- The iterator of a call that came back stands where the call left it. -/
def StandsSome (c : Comparator) (s : SequenceNumber) (S : Set KeyValue)
    (At : it.State → Option KeyValue → Prop) (m : Option (DBIter it)) (o : Option KeyValue) : Prop :=
  ∃ m', m = some m' ∧ Stands c s S At m' o

theorem Stands.at_iter {m : DBIter it} {o : Option KeyValue} (h : Stands c s S At m o) :
    m.status_ = .OK ∧ ∃ o', At m.iter o' := by
  cases h with
  | nowhere _ hstatus hat => exact ⟨hstatus, _, hat⟩
  | forward _ hstatus _ hat _ => exact ⟨hstatus, _, hat⟩
  | reverse _ hstatus _ _ _ _ hat _ => exact ⟨hstatus, _, hat⟩

/-- Over a finite set of internal entries the iterator of a snapshot walks what the snapshot shows, in
both directions and across changes of direction, and none of its loops takes more turns than there
are entries. -/
theorem db_iterator_walks_the_snapshot (it : Iterator) (c : Comparator) (s : SequenceNumber)
    (S : Set KeyValue) (At : it.State → Option KeyValue → Prop) (turns : ℕ) (hc : c.Lawful)
    (hs : s ≤ kMaxSequenceNumber) (hS : Versions c S) (hfinite : S.Finite) (hturns : S.ncard < turns)
    (hwalks : Walks (InternalKeyComparator c).Compare S it .OK At) :
    Walks c.Compare (visible c S s) (iterator c s it turns) .OK (StandsSome c s S At) ∧
      ∀ iter o, At iter o → StandsSome c s S At (some (new iter)) none := by
  have hreturn : ∀ {call : Option (DBIter it)} {P : Option KeyValue → Prop},
      (∃ m' o', call = some m' ∧ Stands c s S At m' o' ∧ P o') →
      ∃ o', StandsSome c s S At call o' ∧ P o' := by
    rintro call P ⟨m', o', hcall, hstands, hP⟩
    exact ⟨o', ⟨m', hcall, hstands⟩, hP⟩
  refine ⟨?_, fun iter o hat => ⟨_, rfl, .nowhere rfl rfl hat⟩⟩
  refine
    { valid := ?valid, key := ?key, value := ?value, status := ?status, inside := ?inside,
      seekToFirst := ?first, seekToLast := ?last, seek := ?seek, next := ?next, prev := ?prev }
  case valid =>
    rintro _ o ⟨m, rfl, h⟩
    cases h with
    | nowhere hvalid => exact hvalid
    | forward hvalid => exact hvalid
    | reverse hvalid => exact hvalid
  case key =>
    rintro _ e ⟨m, rfl, h⟩
    cases h with
    | forward _ _ hdir hat => simp [iterator, key, hdir, hwalks.key hat]
    | reverse _ _ hdir hkey => simp [iterator, key, hdir, hkey]
  case value =>
    rintro _ e ⟨m, rfl, h⟩
    cases h with
    | forward _ _ hdir hat => simp [iterator, value, hdir, hwalks.value hat]
    | reverse _ _ hdir _ hvalue => simp [iterator, value, hdir, hvalue]
  case status =>
    rintro _ o ⟨m, rfl, h⟩
    obtain ⟨hstatus, o', hat⟩ := h.at_iter
    simp [iterator, status, hstatus, hwalks.status hat]
  case inside =>
    rintro _ e ⟨m, rfl, h⟩
    cases h with
    | @forward x _ _ _ _ hx => exact ⟨x, hx, rfl⟩
    | @reverse x _ _ _ _ _ _ hx => exact ⟨x, hx, rfl⟩
  case first =>
    rintro _ o ⟨m, rfl, h⟩
    obtain ⟨hstatus, o', hat⟩ := h.at_iter
    exact hreturn (SeekToFirst_found hc hS hfinite hwalks hturns hstatus hat)
  case last =>
    rintro _ o ⟨m, rfl, h⟩
    obtain ⟨hstatus, o', hat⟩ := h.at_iter
    exact hreturn (SeekToLast_found hc hS hfinite hwalks hturns hstatus hat)
  case seek =>
    rintro _ o ⟨m, rfl, h⟩ target
    obtain ⟨hstatus, o', hat⟩ := h.at_iter
    exact hreturn (Seek_found hc hS hfinite hwalks hturns hs hstatus hat target)
  case next =>
    rintro _ e ⟨m, rfl, h⟩
    exact hreturn (Next_found hc hS hfinite hwalks hturns h)
  case prev =>
    rintro _ e ⟨m, rfl, h⟩
    exact hreturn (Prev_found hc hS hfinite hwalks hturns h)

/-- Two versions of "a", then "b" deleted and written again, and a "c" newer than the snapshot at 3. -/
def someVersions : List KeyValue :=
  [(AppendInternalKey [] ⟨[97], 3, .kTypeValue⟩, [11]), (AppendInternalKey [] ⟨[97], 1, .kTypeValue⟩, [10]),
    (AppendInternalKey [] ⟨[98], 5, .kTypeValue⟩, [21]), (AppendInternalKey [] ⟨[98], 2, .kTypeDeletion⟩, []),
    (AppendInternalKey [] ⟨[98], 1, .kTypeValue⟩, [20]), (AppendInternalKey [] ⟨[99], 4, .kTypeValue⟩, [30])]

theorem some_versions_walk :
    Walks BytewiseComparator.Compare (visible BytewiseComparator (entries someVersions) 3)
      (iterator BytewiseComparator 3
        (ofList (InternalKeyComparator BytewiseComparator).Compare .OK someVersions) 7) .OK
      (StandsSome BytewiseComparator 3 (entries someVersions) (AtPlace someVersions)) := by
  have htotal := InternalKeyComparator_total bytewise_lawful.total
  have hsorted : Sorted (InternalKeyComparator BytewiseComparator).Compare someVersions := by
    unfold Sorted
    decide +kernel
  have hparses : ∀ x ∈ someVersions, ∃ p, ParseInternalKey x.1 = some p := by
    have hsome : ∀ x ∈ someVersions, (ParseInternalKey x.1).isSome := by decide +kernel
    exact fun x hx => Option.isSome_iff_exists.mp (hsome x hx)
  have hfew : (entries someVersions).ncard < 7 := Nat.lt_succ_of_le (ncard_entries_le someVersions)
  exact (db_iterator_walks_the_snapshot _ BytewiseComparator 3 _ _ 7 bytewise_lawful (by decide)
    ⟨hparses, hsorted.apart⟩ (entries_finite _) hfew (ofList_walks Status.OK hsorted)).1

end bitcoinstats.leveldb.DBIter

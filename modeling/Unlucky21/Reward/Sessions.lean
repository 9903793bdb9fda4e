import Unlucky21.Reward.Top21

/-!
# Scores, share by share

`gaps`, `session_starts` and `alltime` look at the whole history of an address
again with every query. What they compute is a running maximum: a share that
comes within seven days of the one before can only improve the score, and a
share after a longer pause is the score.
-/

namespace Reward

open Wire Query

/-! ## One more share -/

section Append

variable {rows : List ShareRow} {r : ShareRow}

theorem mem_submissions_append {t : Time} :
    t ∈ submissions (rows ++ [r]) r.btcAddress ↔
      t ∈ submissions rows r.btcAddress ∨ t = r.submittedAt := by
  simp only [submissions, Set.mem_ofPred_eq, List.mem_append, List.mem_singleton]
  constructor
  · rintro ⟨s, hs | rfl, ha, rfl⟩
    · exact .inl ⟨s, hs, ha, rfl⟩
    · exact .inr rfl
  · rintro (⟨s, hs, ha, rfl⟩ | rfl)
    · exact ⟨s, .inl hs, ha, rfl⟩
    · exact ⟨r, .inr rfl, rfl, rfl⟩

/-- The scores of an address depend on its own shares only. -/
theorem alltimeBest_congr {rows' : List ShareRow} {a : Text}
    (h : ofAddress rows a = ofAddress rows' a) : alltimeBest rows a = alltimeBest rows' a := by
  simp only [alltimeBest, sessionShares, sessionStart, h]

theorem alltimeBest_append_of_ne {a : Text} (h : r.btcAddress ≠ a) :
    alltimeBest (rows ++ [r]) a = alltimeBest rows a :=
  alltimeBest_congr (by simp [ofAddress, h])

variable (hle : ∀ t ∈ submissions rows r.btcAddress, t ≤ r.submittedAt)

include hle

/-- Of all pauses only the last one can be new. -/
theorem resumes_append_iff {t : Time} : Resumes (rows ++ [r]) r.btcAddress t ↔
    Resumes rows r.btcAddress t ∨ (t = r.submittedAt ∧ ∃ p,
      IsGreatest {q ∈ submissions rows r.btcAddress | q < r.submittedAt} p ∧
        sevenDays < r.submittedAt - p) := by
  have hbefore : ∀ {t}, t ≤ r.submittedAt →
      {q ∈ submissions (rows ++ [r]) r.btcAddress | q < t} =
        {q ∈ submissions rows r.btcAddress | q < t} := by
    intro t ht
    ext q
    simp only [Set.mem_ofPred_eq, mem_submissions_append]
    refine and_congr_left fun hq => or_iff_left ?_
    rintro rfl
    exact absurd hq (not_lt.mpr ht)
  constructor
  · rintro ⟨ht, p, hp, hgap⟩
    rcases mem_submissions_append.mp ht with ht | rfl
    · rw [hbefore (hle t ht)] at hp
      exact .inl ⟨ht, p, hp, hgap⟩
    · rw [hbefore le_rfl] at hp
      exact .inr ⟨rfl, p, hp, hgap⟩
  · rintro (⟨ht, p, hp, hgap⟩ | ⟨rfl, p, hp, hgap⟩)
    · refine ⟨mem_submissions_append.mpr (.inl ht), p, ?_, hgap⟩
      rwa [hbefore (hle t ht)]
    · refine ⟨mem_submissions_append.mpr (.inr rfl), p, ?_, hgap⟩
      rwa [hbefore le_rfl]

/-- A share within seven days of the one before leaves the session as it is. -/
theorem sessionStart_append_of_active {last t : Time}
    (hlast : IsGreatest (submissions rows r.btcAddress) last)
    (hactive : r.submittedAt - last ≤ sevenDays) :
    SessionStart (rows ++ [r]) r.btcAddress t ↔ SessionStart rows r.btcAddress t := by
  have hsame : ∀ t, Resumes (rows ++ [r]) r.btcAddress t ↔ Resumes rows r.btcAddress t := by
    intro t
    rw [resumes_append_iff hle]
    refine or_iff_left_of_imp ?_
    rintro ⟨rfl, p, hp, hgap⟩
    rcases (hle last hlast.1).eq_or_lt with heq | hlt
    · -- the share has the time of the last one
      exact ⟨heq ▸ hlast.1, p, hp, hgap⟩
    · have hpl : last ≤ p := hp.2 ⟨hlast.1, hlt⟩
      exact absurd (hgap.trans_le ((sub_le_sub_left hpl _).trans hactive)) (lt_irrefl _)
  simp only [SessionStart, hsame]

/-- The best share of the session or the new one. -/
theorem score_append_of_active {last : Time} {v d : ℤ}
    (hlast : IsGreatest (submissions rows r.btcAddress) last)
    (hactive : r.submittedAt - last ≤ sevenDays) (hv : Score rows r.btcAddress v)
    (hd : r.trueDifficulty = some d) : Score (rows ++ [r]) r.btcAddress (max v d) := by
  have hset : {x | ∃ s, InSession (rows ++ [r]) r.btcAddress s ∧ s.trueDifficulty = some x} =
      insert d {x | ∃ s, InSession rows r.btcAddress s ∧ s.trueDifficulty = some x} := by
    ext x
    simp only [InSession, sessionStart_append_of_active hle hlast hactive, List.mem_append,
      List.mem_singleton, Set.mem_insert_iff, Set.mem_ofPred_eq]
    constructor
    · rintro ⟨s, ⟨hs | rfl, ha, hsince⟩, hx⟩
      · exact .inr ⟨s, ⟨hs, ha, hsince⟩, hx⟩
      · exact .inl (Option.some.inj (hx.symm.trans hd))
    · rintro (rfl | ⟨s, ⟨hs, ha, hsince⟩, hx⟩)
      · exact ⟨r, ⟨.inr rfl, rfl, fun t ht => hle t ht.1.1⟩, hd⟩
      · exact ⟨s, ⟨.inl hs, ha, hsince⟩, hx⟩
  rw [Score, hset, max_comm]
  exact hv.insert d

/-- After a pause, or for the first time, the new share stands alone. -/
theorem score_append_of_fresh {d : ℤ}
    (hfresh : ∀ last, IsGreatest (submissions rows r.btcAddress) last →
      sevenDays < r.submittedAt - last) (hd : r.trueDifficulty = some d)
    (hfinite : (submissions rows r.btcAddress).Nonempty →
      ∃ last, IsGreatest (submissions rows r.btcAddress) last) :
    Score (rows ++ [r]) r.btcAddress d := by
  have hpos : 0 < sevenDays := by decide
  have honly : ∀ s, InSession (rows ++ [r]) r.btcAddress s ↔ s = r := by
    intro s
    constructor
    · rintro ⟨hs, ha, hsince⟩
      rcases List.mem_append.mp hs with hs | hs
      · -- an older share lies before the session that the new share starts
        have hmem : s.submittedAt ∈ submissions rows r.btcAddress := ⟨s, hs, ha, rfl⟩
        obtain ⟨last, hlast⟩ := hfinite ⟨_, hmem⟩
        have hgap := hfresh last hlast
        have hlt : last < r.submittedAt := sub_pos.mp (hpos.trans hgap)
        have hstart : SessionStart (rows ++ [r]) r.btcAddress r.submittedAt := by
          refine ⟨(resumes_append_iff hle).mpr (.inr ⟨rfl, last, ⟨⟨hlast.1, hlt⟩, ?_⟩, hgap⟩), ?_⟩
          · exact fun q hq => hlast.2 hq.1
          · intro t ht
            rcases mem_submissions_append.mp ht.1 with ht | rfl
            · exact hle t ht
            · exact le_rfl
        exact absurd (hsince _ hstart) (not_le.mpr ((hlast.2 hmem).trans_lt hlt))
      · exact List.mem_singleton.mp hs
    · rintro rfl
      refine ⟨List.mem_append_right _ List.mem_cons_self, rfl, fun t ht => ?_⟩
      rcases mem_submissions_append.mp ht.1.1 with ht | rfl
      · exact hle t ht
      · exact le_rfl
  simp only [Score, honly, exists_eq_left, hd, Option.some.injEq]
  exact ⟨rfl, fun x (hx : d = x) => hx.ge⟩

end Append

/-! ## The statement's scores -/

/-- The `alltime_best` the statement assigns to an address. -/
def alltimeScore (shares : List ShareRow) (roundID : ℕ) (a : Text) : Option ℤ :=
  ((alltime (liveShares shares roundID)).find? fun r => r.btcAddress = a).bind
    AlltimeRow.alltimeBest

/-- Only shares that count for the round, each with a difficulty. -/
def LiveTable (shares : List ShareRow) (roundID : ℕ) : Prop :=
  ∀ s ∈ shares, s.roundId = roundID ∧ s.isStale = false ∧ s.trueDifficulty.isSome

/-- The time of the latest share of an address. -/
def lastShare (shares : List ShareRow) (a : Text) : Option Time :=
  ((ofAddress shares a).map ShareRow.submittedAt).max?

theorem LiveTable.liveShares_eq {shares : List ShareRow} {roundID : ℕ}
    (h : LiveTable shares roundID) : liveShares shares roundID = shares := by
  refine List.filter_eq_self.mpr fun s hs => ?_
  obtain ⟨hround, hstale, -⟩ := h s hs
  simp [hround, hstale]

theorem alltimeScore_eq {shares : List ShareRow} {roundID : ℕ} (h : LiveTable shares roundID)
    (a : Text) : alltimeScore shares roundID a = alltimeBest shares a := by
  rw [alltimeScore, h.liveShares_eq]
  by_cases ha : a ∈ shares.map ShareRow.btcAddress
  · have hone := filter_alltime ha
    simp only [eq_comm (a := a)] at hone
    rw [← List.head?_filter, hone]
    rfl
  · have hnone : (alltime shares).find? (fun r => r.btcAddress = a) = none := by
      refine List.find?_eq_none.mpr fun r hr heq => ha ?_
      obtain rfl : r.btcAddress = a := by simpa using heq
      exact (mem_alltime hr).1
    rw [hnone, alltimeBest, sessionShares, sessionStart, ofAddress_eq_nil ha]
    rfl

theorem lastShare_eq_some_iff {shares : List ShareRow} {a : Text} {t : Time} :
    lastShare shares a = some t ↔ IsGreatest (submissions shares a) t := by
  rw [lastShare, max?_eq_some_iff_isGreatest]
  simp only [mem_submissions]
  rfl

/-- What is scored after a share of difficulty `d` at time `t`, if `score` was
the score before and `last` the time of the share before. -/
def scoreAfter (last : Option Time) (score : Option ℤ) (t : Time) (d : ℤ) : ℤ :=
  match last, score with
  | some last, some v => if t - last ≤ sevenDays then max v d else d
  | _, _ => d

theorem alltimeBest_append {rows : List ShareRow} {r : ShareRow} {d : ℤ}
    (hvalue : ∀ s ∈ rows, s.trueDifficulty.isSome)
    (hle : ∀ t ∈ submissions rows r.btcAddress, t ≤ r.submittedAt)
    (hd : r.trueDifficulty = some d) :
    alltimeBest (rows ++ [r]) r.btcAddress =
      some (scoreAfter (lastShare rows r.btcAddress) (alltimeBest rows r.btcAddress)
        r.submittedAt d) := by
  have hfinite : (submissions rows r.btcAddress).Nonempty →
      ∃ last, IsGreatest (submissions rows r.btcAddress) last := by
    rintro ⟨t, ht⟩
    have hne : (ofAddress rows r.btcAddress).map ShareRow.submittedAt ≠ [] :=
      List.ne_nil_of_mem (mem_submissions.mpr ht)
    obtain ⟨last, hlast⟩ := Option.ne_none_iff_exists'.mp (mt List.max?_eq_none_iff.mp hne)
    exact ⟨last, lastShare_eq_some_iff.mp hlast⟩
  rw [alltimeBest_eq_some_iff]
  cases hlast : lastShare rows r.btcAddress with
  | none =>
      refine score_append_of_fresh hle (fun last h => ?_) hd hfinite
      rw [lastShare_eq_some_iff.mpr h] at hlast
      cases hlast
  | some last =>
      have hgreatest := lastShare_eq_some_iff.mp hlast
      obtain ⟨s, hs, ha, -⟩ := hgreatest.1
      obtain ⟨v, hv⟩ := ha ▸ exists_score hvalue hs
      rw [alltimeBest_eq_some_iff.mpr hv]
      by_cases hactive : r.submittedAt - last ≤ sevenDays
      · rw [scoreAfter, if_pos hactive]
        exact score_append_of_active hle hgreatest hactive hv hd
      · rw [scoreAfter, if_neg hactive]
        refine score_append_of_fresh hle (fun last' h => ?_) hd hfinite
        rw [h.unique hgreatest]
        exact not_le.mp hactive

/-! ## Histories -/

/-- The latest share of a sorted history is its last one. -/
theorem lastShare_append {rows : List ShareRow} {s : ShareRow} {a : Text}
    (hown : ∀ s' ∈ rows ++ [s], s'.btcAddress = a)
    (hsorted : (rows ++ [s]).Pairwise fun s s' => s.submittedAt ≤ s'.submittedAt) :
    lastShare (rows ++ [s]) a = some s.submittedAt := by
  have hmem : s ∈ rows ++ [s] := List.mem_append_right _ List.mem_cons_self
  rw [lastShare_eq_some_iff]
  refine ⟨⟨s, hmem, hown s hmem, rfl⟩, ?_⟩
  rintro t ⟨s', hs', -, rfl⟩
  rcases List.mem_append.mp hs' with hs' | hs'
  · exact (List.pairwise_append.mp hsorted).2.2 s' hs' s List.mem_cons_self
  · rw [List.mem_singleton.mp hs']

theorem max?_append_singleton {l : List ℤ} {v d : ℤ} (h : l.max? = some v) :
    (l ++ [d]).max? = some (max v d) := by
  have hset : {x | x ∈ l ++ [d]} = insert d {x | x ∈ l} := by
    ext x
    simp [or_comm]
  rw [max?_eq_some_iff_isGreatest, hset, max_comm]
  exact (max?_eq_some_iff_isGreatest.mp h).insert d

/-- **The current session.** After the last pause the score is the best share,
for histories of any length, also with several shares at one time. -/
theorem alltimeBest_session {a : Text} {pre post : List ShareRow} {x : ShareRow}
    (hown : ∀ s ∈ pre ++ x :: post, s.btcAddress = a)
    (hvalue : ∀ s ∈ pre ++ x :: post, s.trueDifficulty.isSome)
    (hsorted : (pre ++ x :: post).Pairwise fun s s' => s.submittedAt ≤ s'.submittedAt)
    (hpause : ∀ p ∈ pre.getLast?, sevenDays < x.submittedAt - p.submittedAt)
    (hactive : (x :: post).IsChain fun s s' => s'.submittedAt - s.submittedAt ≤ sevenDays) :
    alltimeBest (pre ++ x :: post) a = ((x :: post).filterMap ShareRow.trueDifficulty).max? := by
  induction post using List.reverseRecOn with
  | nil =>
      obtain rfl : x.btcAddress = a := hown x (by simp)
      obtain ⟨d, hd⟩ := Option.isSome_iff_exists.mp (hvalue x (by simp))
      have hle : ∀ t ∈ submissions pre x.btcAddress, t ≤ x.submittedAt := by
        rintro t ⟨s, hs, -, rfl⟩
        exact (List.pairwise_append.mp hsorted).2.2 s hs x List.mem_cons_self
      rw [alltimeBest_append (fun s hs => hvalue s (List.mem_append_left _ hs)) hle hd]
      have hd' : ([x].filterMap ShareRow.trueDifficulty).max? = some d := by simp [hd]
      rw [hd']
      congr 1
      induction pre using List.reverseRecOn with
      | nil => rfl
      | append_singleton pre p _ =>
          have hlast : lastShare (pre ++ [p]) x.btcAddress = some p.submittedAt := lastShare_append
            (fun s hs => hown s (List.mem_append_left _ hs)) (List.pairwise_append.mp hsorted).1
          have hgap : ¬ x.submittedAt - p.submittedAt ≤ sevenDays :=
            not_le.mpr (hpause p (by simp))
          rw [hlast]
          cases alltimeBest (pre ++ [p]) x.btcAddress with
          | none => rfl
          | some v => rw [scoreAfter, if_neg hgap]
  | append_singleton post y ih =>
      have hsplit : pre ++ x :: (post ++ [y]) = (pre ++ x :: post) ++ [y] := by simp
      rw [hsplit] at hown hvalue hsorted ⊢
      obtain rfl : y.btcAddress = a := hown y (by simp)
      obtain ⟨d, hd⟩ := Option.isSome_iff_exists.mp (hvalue y (by simp))
      have hown' := fun s hs => hown s (List.mem_append_left [y] hs)
      have hvalue' := fun s hs => hvalue s (List.mem_append_left [y] hs)
      have hsorted' := (List.pairwise_append.mp hsorted).1
      have hle : ∀ t ∈ submissions (pre ++ x :: post) y.btcAddress, t ≤ y.submittedAt := by
        rintro t ⟨s, hs, -, rfl⟩
        exact (List.pairwise_append.mp hsorted).2.2 s hs y List.mem_cons_self
      rw [← List.cons_append, List.isChain_append] at hactive
      obtain ⟨hactive, -, hlink⟩ := hactive
      obtain ⟨front, z, hz⟩ : ∃ front z, x :: post = front ++ [z] :=
        ⟨_, _, (List.dropLast_append_getLast (List.cons_ne_nil x post)).symm⟩
      have hlast : lastShare (pre ++ x :: post) y.btcAddress = some z.submittedAt := by
        rw [hz, ← List.append_assoc] at hown' hsorted' ⊢
        exact lastShare_append hown' hsorted'
      have hgap : y.submittedAt - z.submittedAt ≤ sevenDays :=
        hlink z (by simp [hz]) y (by simp)
      rw [alltimeBest_append hvalue' hle hd, hlast, ih hown' hvalue' hsorted' hactive,
        ← List.cons_append, List.filterMap_append]
      have hd' : [y].filterMap ShareRow.trueDifficulty = [d] := by simp [hd]
      rw [hd']
      cases hmax : ((x :: post).filterMap ShareRow.trueDifficulty).max? with
      | none =>
          rw [List.max?_eq_none_iff.mp hmax]
          rfl
      | some v => rw [scoreAfter, if_pos hgap, max?_append_singleton hmax]

/-- **The query is the rule a miner expects.** With one more share, submitted no
earlier than the others, the score of its address is the better of the old score
and the new share, or the new share alone if the address paused for more than
seven days or is new. The other scores stay, and the address is recent. So an
address is scored on its best share since its last pause. -/
theorem score_session_rule (roundID : ℕ) :
    (∀ (shares : List ShareRow) (r : ShareRow) (d : ℤ), LiveTable (shares ++ [r]) roundID →
      r.trueDifficulty = some d → (∀ s ∈ shares, s.submittedAt ≤ r.submittedAt) →
        alltimeScore (shares ++ [r]) roundID r.btcAddress =
          some (scoreAfter (lastShare shares r.btcAddress)
            (alltimeScore shares roundID r.btcAddress) r.submittedAt d) ∧
        (∀ a, a ≠ r.btcAddress →
          alltimeScore (shares ++ [r]) roundID a = alltimeScore shares roundID a) ∧
        ∃ row ∈ recent topColumns (liveShares (shares ++ [r]) roundID) r.submittedAt,
          row.btcAddress = r.btcAddress) ∧
    (∀ (shares : List ShareRow) (a : Text) (pre post : List ShareRow) (x : ShareRow),
      LiveTable shares roundID →
      shares.Pairwise (fun s s' => s.submittedAt ≤ s'.submittedAt) →
      ofAddress shares a = pre ++ x :: post →
      (∀ p ∈ pre.getLast?, sevenDays < x.submittedAt - p.submittedAt) →
      (x :: post).IsChain (fun s s' => s'.submittedAt - s.submittedAt ≤ sevenDays) →
        alltimeScore shares roundID a = ((x :: post).filterMap ShareRow.trueDifficulty).max?) := by
  constructor
  · intro shares r d hlive hd htime
    have hlive' : LiveTable shares roundID := fun s hs => hlive s (List.mem_append_left _ hs)
    have hle : ∀ t ∈ submissions shares r.btcAddress, t ≤ r.submittedAt := by
      rintro t ⟨s, hs, -, rfl⟩
      exact htime s hs
    refine ⟨?_, fun a ha => ?_, ?_⟩
    · rw [alltimeScore_eq hlive, alltimeScore_eq hlive']
      exact alltimeBest_append (fun s hs => (hlive' s hs).2.2) hle hd
    · rw [alltimeScore_eq hlive, alltimeScore_eq hlive']
      exact alltimeBest_append_of_ne ha.symm
    · have hpos : 0 < sevenDays := by decide
      have hrecent : r ∈ recentShares (shares ++ [r]) r.submittedAt :=
        List.mem_filter.mpr ⟨List.mem_append_right _ List.mem_cons_self, by simpa using hpos⟩
      rw [hlive.liveShares_eq]
      exact ⟨_, List.mem_map_of_mem (mem_groupBy.mpr ⟨⟨r, hrecent, rfl⟩, rfl⟩), rfl⟩
  · intro shares a pre post x hlive hsorted hsplit hpause hactive
    have hmem : ∀ s ∈ pre ++ x :: post, s ∈ shares ∧ s.btcAddress = a := fun s hs =>
      mem_ofAddress.mp (hsplit ▸ hs)
    have hself : ofAddress (pre ++ x :: post) a = pre ++ x :: post :=
      List.filter_eq_self.mpr fun s hs => by simp [(hmem s hs).2]
    rw [alltimeScore_eq hlive, alltimeBest_congr (hsplit.trans hself.symm)]
    refine alltimeBest_session (fun s hs => (hmem s hs).2)
      (fun s hs => (hlive s (hmem s hs).1).2.2) ?_ hpause hactive
    rw [← hsplit]
    exact hsorted.sublist List.filter_sublist

/-- A good share, then a pause, then a lesser one. -/
def resumedTable : List ShareRow :=
  [⟨1, ['a'], [], 1, 0, false, some 9, none⟩, ⟨1, ['a'], [], 1, sevenDays + 1, false, some 5, none⟩]

theorem score_session_rule_resumed :
    alltimeScore resumedTable 1 ['a'] = some 5 ∧ alltimeScore resumedTable 1 ['b'] = none := by
  obtain ⟨hself, hother, -⟩ := (score_session_rule 1).1
    [⟨1, ['a'], [], 1, 0, false, some 9, none⟩]
    ⟨1, ['a'], [], 1, sevenDays + 1, false, some 5, none⟩ 5 (by simp [LiveTable]) rfl (by simp; decide)
  exact ⟨hself.trans (by decide), (hother ['b'] (by decide)).trans (by decide)⟩

end Reward

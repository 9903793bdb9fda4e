import Mathlib

/-!
# Queries over tables

The clauses of a SQL query as functions on lists of rows: grouping, the row
before in a window, joins, ranking and cutting off. A clause that leaves the
order of its rows open either has one here or, for `ORDER BY` with ties, is a
relation: `OrderedDesc` holds of every order the database may return.
-/

namespace Query

variable {α β κ : Type*}

/-! ## Keys and groups -/

section Groups

variable [DecidableEq κ]

/-- `GROUP BY key`: each key with its rows. -/
def groupBy (key : α → κ) (rows : List α) : List (κ × List α) :=
  (rows.map key).dedup.map fun k => (k, rows.filter fun r => key r = k)

theorem groupBy_keys (key : α → κ) (rows : List α) :
    (groupBy key rows).map Prod.fst = (rows.map key).dedup := by
  simp [groupBy, Function.comp_def]

theorem mem_groupBy {key : α → κ} {rows : List α} {k : κ} {g : List α} :
    (k, g) ∈ groupBy key rows ↔ (∃ r ∈ rows, key r = k) ∧ g = rows.filter fun r => key r = k := by
  simp only [groupBy, List.mem_map, List.mem_dedup, Prod.mk.injEq]
  constructor
  · rintro ⟨k', hk', rfl, rfl⟩
    exact ⟨hk', rfl⟩
  · rintro ⟨hk, rfl⟩
    exact ⟨k, hk, rfl, rfl⟩

/-- A table with unique keys has one row of a key it has. -/
theorem filter_key_eq {key : β → κ} {rows : List β} (hnodup : (rows.map key).Nodup) {r : β}
    (hr : r ∈ rows) : rows.filter (fun s => key s = key r) = [r] := by
  induction rows with
  | nil => cases hr
  | cons s rows ih =>
      obtain ⟨hs, hnodup⟩ := List.nodup_cons.mp hnodup
      rcases List.mem_cons.mp hr with rfl | hr
      · have hnone : rows.filter (fun s => key s = key r) = [] := by
          refine List.filter_eq_nil_iff.mpr fun s' hs' heq => hs ?_
          exact List.mem_map.mpr ⟨s', hs', by simpa using heq⟩
        simp [hnone]
      · have hne : key s ≠ key r := fun heq => hs (heq ▸ List.mem_map_of_mem hr)
        simp [hne, ih hnodup hr]

theorem filter_key_eq_nil {key : β → κ} {rows : List β} {k : κ} (hk : k ∉ rows.map key) :
    rows.filter (fun s => key s = k) = [] :=
  List.filter_eq_nil_iff.mpr fun s hs heq => hk (List.mem_map.mpr ⟨s, hs, by simpa using heq⟩)

/-- The rows of one key among the rows made of each group. -/
theorem filter_flatMap_groupBy {key : α → κ} {rows : List α} {f : κ × List α → List β}
    {key' : β → κ} (hkey : ∀ g, ∀ r ∈ f g, key' r = g.1) (k : κ) :
    ((groupBy key rows).flatMap f).filter (fun r => key' r = k) =
      if k ∈ rows.map key then f (k, rows.filter fun r => key r = k) else [] := by
  have hgroup : ∀ g, (f g).filter (fun r => key' r = k) = if g.1 = k then f g else [] := by
    intro g
    split
    next hk => exact List.filter_eq_self.mpr fun r hr => by simp [hkey g r hr, hk]
    next hk => exact List.filter_eq_nil_iff.mpr fun r hr => by simp [hkey g r hr, hk]
  have hone : ∀ l : List (κ × List α), l.flatMap (fun g => if g.1 = k then f g else []) =
      (l.filter fun g => g.1 = k).flatMap f := by
    intro l
    induction l with
    | nil => rfl
    | cons g l ih => by_cases hk : g.1 = k <;> simp [hk, ih]
  have hnodup : ((groupBy key rows).map Prod.fst).Nodup := groupBy_keys key rows ▸ List.nodup_dedup _
  simp only [List.filter_flatMap, hgroup, hone]
  split
  next hk =>
    have hmem : (k, rows.filter fun r => key r = k) ∈ groupBy key rows :=
      mem_groupBy.mpr ⟨List.mem_map.mp hk, rfl⟩
    rw [filter_key_eq hnodup hmem, List.flatMap_singleton]
  next hk =>
    have hk' : k ∉ (groupBy key rows).map Prod.fst := by
      rwa [groupBy_keys, List.mem_dedup]
    rw [filter_key_eq_nil hk', List.flatMap_nil]

theorem filter_map_groupBy {key : α → κ} {rows : List α} {f : κ × List α → β} {key' : β → κ}
    (hkey : ∀ g, key' (f g) = g.1) (k : κ) :
    ((groupBy key rows).map f).filter (fun r => key' r = k) =
      if k ∈ rows.map key then [f (k, rows.filter fun r => key r = k)] else [] := by
  rw [List.map_eq_flatMap]
  exact filter_flatMap_groupBy (f := fun g => [f g]) (by simpa using hkey) k

end Groups

/-! ## Joins -/

def innerJoin (on : α → β → Bool) (xs : List α) (ys : List β) : List (α × β) :=
  xs.flatMap fun x => (ys.filter (on x)).map fun y => (x, y)

/-- A row without a match is joined with NULLs. -/
def leftJoin (on : α → β → Bool) (xs : List α) (ys : List β) : List (α × Option β) :=
  xs.flatMap fun x =>
    match ys.filter (on x) with
    | [] => [(x, none)]
    | ms => ms.map fun y => (x, some y)

/-- If every row has exactly one match, the join pairs it with that. -/
theorem innerJoin_eq_map {on : α → β → Bool} {xs : List α} {ys : List β} {f : α → β}
    (h : ∀ x ∈ xs, ys.filter (on x) = [f x]) :
    innerJoin on xs ys = xs.map fun x => (x, f x) := by
  induction xs with
  | nil => rfl
  | cons x xs ih =>
      obtain ⟨hx, hxs⟩ := List.forall_mem_cons.mp h
      have hrest := ih hxs
      simp only [innerJoin, List.flatMap_cons, hx, List.map_cons, List.map_nil] at hrest ⊢
      rw [hrest]
      rfl

/-- If every row has at most one match, the left join keeps each row once. -/
theorem leftJoin_eq_map {on : α → β → Bool} {xs : List α} {ys : List β} {f : α → Option β}
    (h : ∀ x ∈ xs, ys.filter (on x) = (f x).toList) :
    leftJoin on xs ys = xs.map fun x => (x, f x) := by
  induction xs with
  | nil => rfl
  | cons x xs ih =>
      obtain ⟨hx, hxs⟩ := List.forall_mem_cons.mp h
      have hrest := ih hxs
      simp only [leftJoin, List.flatMap_cons, List.map_cons] at hrest ⊢
      rw [hrest, hx]
      cases f x <;> rfl

/-! ## The row before -/

/-- `LAG` over rows already in order: each with the one before it. -/
def lagFrom : Option α → List α → List (α × Option α)
  | _, [] => []
  | prev, x :: xs => (x, prev) :: lagFrom (some x) xs

def lag (sorted : List α) : List (α × Option α) := lagFrom none sorted

/-- The rows that have one before them, in pairs. -/
theorem filterMap_lagFrom (x : α) (l : List α) :
    (lagFrom (some x) l).filterMap (fun p => p.2.map fun q => (q, p.1)) = (x :: l).zip l := by
  induction l generalizing x with
  | nil => rfl
  | cons y l ih => simp [lagFrom, ih]

theorem filterMap_lag (l : List α) :
    (lag l).filterMap (fun p => p.2.map fun q => (q, p.1)) = l.zip l.tail := by
  cases l with
  | nil => rfl
  | cons x l => simpa [lag, lagFrom] using filterMap_lagFrom x l

section Consecutive

variable [LinearOrder α]

/-- In a sorted list the row before `t` holds `p < t` exactly if no other value
lies between. -/
theorem mem_lagFrom_iff {prev : Option α} {l : List α} (hsorted : (prev.toList ++ l).Pairwise (· ≤ ·))
    {p t : α} (hlt : p < t) :
    (t, some p) ∈ lagFrom prev l ↔
      p ∈ prev.toList ++ l ∧ t ∈ l ∧ ∀ q ∈ prev.toList ++ l, q ≤ p ∨ t ≤ q := by
  induction l generalizing prev with
  | nil => simp [lagFrom]
  | cons x l ih =>
      have htail : ((some x).toList ++ l).Pairwise (· ≤ ·) :=
        hsorted.sublist (List.sublist_append_right _ _)
      have hx : ∀ q ∈ l, x ≤ q := (List.pairwise_cons.mp htail).1
      rw [lagFrom, List.mem_cons, ih htail]
      constructor
      · rintro (heq | ⟨hp, ht, hgap⟩)
        · obtain ⟨rfl, rfl⟩ := Prod.mk.inj heq
          refine ⟨by simp, by simp, fun q hq => ?_⟩
          rcases List.mem_append.mp hq with hq | hq
          · exact .inl (by simpa using hq : q = p).le
          · rcases List.mem_cons.mp hq with rfl | hq
            · exact .inr le_rfl
            · exact .inr (hx q hq)
        · refine ⟨List.mem_append_right _ (by simpa using hp), List.mem_cons_of_mem _ ht, ?_⟩
          intro q hq
          rcases List.mem_append.mp hq with hq | hq
          · -- what comes before the list is below its first value, which is below `p`
            have hqx : q ≤ x := (List.pairwise_append.mp hsorted).2.2 q hq x (by simp)
            rcases List.mem_cons.mp (by simpa using hp) with rfl | hp
            · exact .inl hqx
            · exact .inl (hqx.trans (hx p hp))
          · exact hgap q (by simpa using hq)
      · rintro ⟨hp, ht, hgap⟩
        have hstart : p < x → some p = prev ∧ t = x := by
          intro hpx
          have hpmem : p ∈ prev.toList := by
            rcases List.mem_append.mp hp with hp | hp
            · exact hp
            · rcases List.mem_cons.mp hp with rfl | hp
              · exact absurd hpx (lt_irrefl _)
              · exact absurd (hx p hp) (not_le.mpr hpx)
          refine ⟨(by simpa using hpmem : prev = some p).symm, le_antisymm ?_ ?_⟩
          · exact (hgap x (by simp)).resolve_left (not_le.mpr hpx)
          · rcases List.mem_cons.mp ht with rfl | ht
            · exact le_rfl
            · exact hx t ht
        rcases lt_or_ge p x with hpx | hpx
        · obtain ⟨hprev, rfl⟩ := hstart hpx
          exact .inl (by rw [hprev])
        · right
          have hpmem : p ∈ x :: l := by
            rcases List.mem_append.mp hp with hp | hp
            · have hle : p ≤ x := (List.pairwise_append.mp hsorted).2.2 p hp x (by simp)
              rw [le_antisymm hle hpx]
              exact List.mem_cons_self
            · exact hp
          refine ⟨by simpa using hpmem, ?_, fun q hq => hgap q ?_⟩
          · rcases List.mem_cons.mp ht with rfl | ht
            · exact absurd hlt (not_lt.mpr hpx)
            · exact ht
          · exact List.mem_append_right _ (by simpa using hq)

/-- `LAG ... OVER (ORDER BY t)`: the values before which a gap lies. -/
theorem mem_lag_insertionSort_iff {l : List α} {p t : α} (hlt : p < t) :
    (t, some p) ∈ lag (l.insertionSort (· ≤ ·)) ↔ p ∈ l ∧ t ∈ l ∧ ∀ q ∈ l, q ≤ p ∨ t ≤ q := by
  have hsorted : ((none : Option α).toList ++ l.insertionSort (· ≤ ·)).Pairwise (· ≤ ·) :=
    List.pairwise_insertionSort _ _
  rw [lag, mem_lagFrom_iff hsorted hlt]
  simp

end Consecutive

/-! ## Ranking and cutting off -/

section Ranking

variable {σ : Type*} [LinearOrder σ] (score : α → σ)

/-- What `ORDER BY score DESC` may return. -/
def OrderedDesc (rows out : List α) : Prop :=
  out.Perm rows ∧ out.Pairwise fun a b => score b ≤ score a

/-- `RANK() OVER (ORDER BY score DESC)`. -/
def rank (rows : List α) (x : α) : ℕ := 1 + rows.countP fun y => score x < score y

/-- The rows of rank `n` at most. -/
def leaders (n : ℕ) (rows : List α) : List α := rows.filter fun x => rank score rows x ≤ n

theorem orderedDesc_insertionSort (rows : List α) :
    OrderedDesc score rows (rows.insertionSort fun a b => score b ≤ score a) := by
  refine ⟨List.perm_insertionSort _ _, ?_⟩
  have : Std.Total fun a b : α => score b ≤ score a := ⟨fun a b => le_total (score b) (score a)⟩
  have : IsTrans α fun a b => score b ≤ score a := ⟨fun a b c hab hbc => hbc.trans hab⟩
  exact List.pairwise_insertionSort _ _

variable {score}

/-- Ordering rows that are made from keys is ordering the keys. -/
theorem orderedDesc_map_iff {f : β → α} {key : α → β} (hkey : ∀ k, key (f k) = k) {ks : List β}
    {out : List α} : OrderedDesc score (ks.map f) out ↔
      ∃ ks', out = ks'.map f ∧ OrderedDesc (fun k => score (f k)) ks ks' := by
  constructor
  · rintro ⟨hperm, hsorted⟩
    have hout : out = (out.map key).map f := by
      rw [List.map_map]
      refine (List.map_id out).symm.trans (List.map_congr_left fun r hr => ?_)
      obtain ⟨k, -, rfl⟩ := List.mem_map.mp (hperm.mem_iff.mp hr)
      simp [hkey]
    have hkeys : (ks.map f).map key = ks := by simp [Function.comp_def, hkey]
    exact ⟨out.map key, hout, hkeys ▸ hperm.map key, List.pairwise_map.mp (hout ▸ hsorted)⟩
  · rintro ⟨ks', rfl, hperm, hsorted⟩
    exact ⟨hperm.map f, List.pairwise_map.mpr hsorted⟩

theorem OrderedDesc.rank_eq {rows out : List α} (h : OrderedDesc score rows out) (x : α) :
    rank score out x = rank score rows x := by
  rw [rank, rank, h.1.countP_eq]

theorem rank_le_rank {rows : List α} {x y : α} (h : score y ≤ score x) :
    rank score rows x ≤ rank score rows y := by
  refine Nat.add_le_add_left (List.countP_mono_left fun z _ hz => ?_) 1
  simpa using h.trans_lt (by simpa using hz)

/-- A row that comes out at some position has a rank of that position at most. -/
theorem OrderedDesc.rank_le {rows pre post : List α} {x : α}
    (h : OrderedDesc score rows (pre ++ x :: post)) : rank score rows x ≤ pre.length + 1 := by
  have hnone : (x :: post).countP (fun y => score x < score y) = 0 := by
    have hpost := (List.pairwise_append.mp h.2).2.1
    refine List.countP_eq_zero.mpr fun y hy => ?_
    rcases List.mem_cons.mp hy with rfl | hy
    · simp
    · simpa using (List.pairwise_cons.mp hpost).1 y hy
  rw [← h.rank_eq, rank, List.countP_append, hnone]
  have := List.countP_le_length (p := fun y => score x < score y) (l := pre)
  omega

theorem leaders_ne_nil (score : α → σ) {n : ℕ} (hn : 0 < n) {rows : List α} (hrows : rows ≠ []) :
    leaders score n rows ≠ [] := by
  have hout := orderedDesc_insertionSort score rows
  have hne : rows.insertionSort (fun a b => score b ≤ score a) ≠ [] := fun hnil =>
    hrows (List.length_eq_zero_iff.mp (hout.1.length_eq ▸ List.length_eq_zero_iff.mpr hnil))
  obtain ⟨x, post, heq⟩ := List.exists_cons_of_ne_nil hne
  have hrank := (heq ▸ hout : OrderedDesc score rows ([] ++ x :: post)).rank_le
  have hx : x ∈ rows := hout.1.mem_iff.mp (heq ▸ List.mem_cons_self)
  exact List.ne_nil_of_mem (List.mem_filter.mpr ⟨hx, decide_eq_true (hrank.trans hn)⟩)

/-- A property that only the front of a list has. -/
theorem filter_take_of_pairwise {p : α → Bool} {l : List α} (h : l.Pairwise fun a b => p b → p a)
    (k : ℕ) : (l.take k).filter p = (l.filter p).take k := by
  induction l generalizing k with
  | nil => simp
  | cons x l ih =>
      obtain ⟨hx, hl⟩ := List.pairwise_cons.mp h
      cases k with
      | zero => rfl
      | succ k =>
          cases hp : p x with
          | true => simp [hp, ih hl]
          | false =>
              have hnone : ∀ y ∈ l, p y = false := by
                intro y hy
                by_contra hy'
                exact absurd (hx y hy (by simpa using hy')) (by simp [hp])
              have hfilter : l.filter p = [] := List.filter_eq_nil_iff.mpr fun y hy => by
                simp [hnone y hy]
              have htake : (l.take k).filter p = [] := List.filter_eq_nil_iff.mpr fun y hy => by
                simp [hnone y (List.mem_of_mem_take hy)]
              simp [hp, hfilter, htake]

theorem OrderedDesc.filter_take {rows out : List α} (h : OrderedDesc score rows out) (n k : ℕ) :
    (out.take k).filter (fun x => rank score rows x ≤ n) = (leaders score n out).take k := by
  have hfront : out.Pairwise fun a b =>
      decide (rank score rows b ≤ n) = true → decide (rank score rows a ≤ n) = true :=
    h.2.imp fun hab hb => decide_eq_true ((rank_le_rank hab).trans (of_decide_eq_true hb))
  rw [filter_take_of_pairwise hfront]
  simp only [leaders, h.rank_eq]

theorem OrderedDesc.leaders_perm {rows out : List α} (h : OrderedDesc score rows out) (n : ℕ) :
    (leaders score n out).Perm (leaders score n rows) := by
  simp only [leaders, h.rank_eq]
  exact h.1.filter _

/-- The first `n` rows are leaders. -/
theorem OrderedDesc.take_eq {rows out : List α} (h : OrderedDesc score rows out) (n : ℕ) :
    out.take n = (leaders score n out).take n := by
  rw [← h.filter_take]
  refine (List.filter_eq_self.mpr fun x hx => ?_).symm
  obtain ⟨pre, post, heq⟩ := List.append_of_mem hx
  have hout : out = pre ++ x :: (post ++ out.drop n) := by
    rw [← List.cons_append, ← List.append_assoc, ← heq, List.take_append_drop]
  have hlen : pre.length + 1 ≤ n := by
    have := congrArg List.length heq
    simp only [List.length_take, List.length_append, List.length_cons] at this
    omega
  have hrank := (hout ▸ h : OrderedDesc score rows (pre ++ x :: (post ++ out.drop n))).rank_le
  exact decide_eq_true (hrank.trans hlen)

/-- If there is no tie across the cut, cutting off leaves the leaders. -/
theorem OrderedDesc.take_perm {rows out : List α} (h : OrderedDesc score rows out) {n : ℕ}
    (hn : (leaders score n rows).length ≤ n) : (out.take n).Perm (leaders score n rows) := by
  rw [h.take_eq, List.take_of_length_le ((h.leaders_perm n).length_eq.trans_le hn)]
  exact h.leaders_perm n

/-- If there is one, the rows tied at the cut can come out either way. -/
theorem OrderedDesc.exists_swap {rows out : List α} (h : OrderedDesc score rows out)
    {n : ℕ} (hn : n < (leaders score n rows).length) :
    ∃ pre a b post, out = pre ++ a :: b :: post ∧ pre.length + 1 = n ∧
      OrderedDesc score rows (pre ++ b :: a :: post) := by
  have hlen : n < out.length :=
    (hn.trans_le (List.length_filter_le _ _)).trans_eq h.1.length_eq.symm
  -- the row after the cut is a leader
  have hleader : rank score rows out[n] ≤ n := by
    have hfilter := h.filter_take n (n + 1)
    have hall : (out.take (n + 1)).filter (fun x => rank score rows x ≤ n) = out.take (n + 1) := by
      refine List.Sublist.eq_of_length_le List.filter_sublist ?_
      rw [hfilter, List.length_take, List.length_take, (h.leaders_perm n).length_eq]
      omega
    have hmem : out[n] ∈ out.take (n + 1) := List.mem_take_iff_getElem.mpr ⟨n, by omega, rfl⟩
    exact of_decide_eq_true (List.filter_eq_self.mp hall _ hmem)
  obtain ⟨m, rfl⟩ : ∃ m, n = m + 1 := ⟨n - 1, by unfold rank at hleader; omega⟩
  have hout : out = out.take m ++ out[m] :: out[m + 1] :: out.drop (m + 2) := by
    rw [List.getElem_cons_drop, List.getElem_cons_drop, List.take_append_drop]
  refine ⟨out.take m, out[m], out[m + 1], out.drop (m + 2), hout, ?_, ?_, ?_⟩
  · rw [List.length_take]
    omega
  · refine (List.Perm.append_left _ (List.Perm.swap _ _ _)).trans ?_
    rw [← hout]
    exact h.1
  · have hle : score out[m + 1] ≤ score out[m] :=
      List.pairwise_iff_getElem.mp h.2 m (m + 1) (by omega) hlen (by omega)
    have heq : score out[m + 1] = score out[m] := by
      refine le_antisymm hle (not_lt.mp fun hlt => ?_)
      -- all rows before the cut would be strictly above the one after it
      have hcount : m + 1 ≤ out.countP fun y => score out[m + 1] < score y := by
        calc m + 1 = (out.take (m + 1)).countP fun y => score out[m + 1] < score y := by
              rw [List.countP_eq_length.mpr, List.length_take]
              · omega
              · intro y hy
                obtain ⟨i, hi, rfl⟩ := List.mem_take_iff_getElem.mp hy
                have hi' : i ≤ m := by omega
                rcases hi'.lt_or_eq with him | rfl
                · exact decide_eq_true (hlt.trans_le
                    (List.pairwise_iff_getElem.mp h.2 i m (by omega) (by omega) him))
                · exact decide_eq_true hlt
          _ ≤ _ := (List.take_sublist _ _).countP_le
      rw [← h.rank_eq, rank] at hleader
      omega
    have hmap : (out.take m ++ out[m + 1] :: out[m] :: out.drop (m + 2)).map score =
        out.map score := by
      conv_rhs => rw [hout]
      simp only [List.map_append, List.map_cons, heq]
    have hpairwise : (out.map score).Pairwise (· ≥ ·) := List.pairwise_map.mpr h.2
    exact List.pairwise_map.mp (hmap ▸ hpairwise)

/-- **Two ways to cut.** One query keeps `n` rows, another the rows of rank `n`
at most among its first `m`. They keep the same rows in every order of ties
exactly if the leaders of the two agree and there are `n` of them at most. -/
theorem cuts_agree_iff (score score' : α → σ) {rows rows' : List α} (hnodup : rows.Nodup)
    (hnodup' : rows'.Nodup) {n m : ℕ} (hnm : n < m) :
    (∀ out out', OrderedDesc score rows out → OrderedDesc score' rows' out' →
      ∀ x, x ∈ (out'.take m).filter (fun y => rank score' rows' y ≤ n) ↔ x ∈ out.take n) ↔
    (leaders score n rows).length ≤ n ∧
      ∀ x, x ∈ leaders score' n rows' ↔ x ∈ leaders score n rows := by
  constructor
  · intro hall
    have hout := orderedDesc_insertionSort score rows
    have hout' := orderedDesc_insertionSort score' rows'
    have hlen : (leaders score n rows).length ≤ n := by
      by_contra hlong
      obtain ⟨pre, a, b, post, heq, hpre, hswap⟩ := hout.exists_swap (not_le.mp hlong)
      -- both orders would have to give what the other query shows
      have hmem : b ∈ (pre ++ b :: a :: post).take n := by
        rw [← hpre, List.take_length_add_append]
        simp
      have hmem' := (hall _ _ hout hout' b).mp ((hall _ _ hswap hout' b).mpr hmem)
      rw [heq, ← hpre, List.take_length_add_append] at hmem'
      have hnodup'' : (pre ++ a :: b :: post).Nodup := heq ▸ hout.1.nodup_iff.mpr hnodup
      rcases List.mem_append.mp hmem' with hb | hb
      · exact (List.nodup_append.mp hnodup'').2.2 b hb b (by simp) rfl
      · have hba : b = a := by simpa using hb
        exact (List.nodup_cons.mp (List.nodup_append.mp hnodup'').2.1).1 (by simp [hba])
    refine ⟨hlen, ?_⟩
    have hshown := fun x => (hall _ _ hout hout' x).trans (hout.take_perm hlen).mem_iff
    rw [hout'.filter_take] at hshown
    have hperm : ((leaders score' n (rows'.insertionSort fun a b => score' b ≤ score' a)).take
        m).Perm (leaders score n rows) := by
      refine (List.perm_ext_iff_of_nodup ?_ (hnodup.filter _)).mpr hshown
      exact ((hout'.1.nodup_iff.mpr hnodup').filter _).sublist (List.take_sublist _ _)
    -- fewer than `m` rows are shown, so all leaders are
    have hshort : (leaders score' n (rows'.insertionSort fun a b => score' b ≤ score' a)).length ≤
        m := by
      have := hperm.length_eq
      rw [List.length_take] at this
      omega
    rw [List.take_of_length_le hshort] at hshown
    exact fun x => (hout'.leaders_perm n).mem_iff.symm.trans (hshown x)
  · rintro ⟨hlen, hsame⟩ out out' hout hout' x
    have hperm : (leaders score' n rows').Perm (leaders score n rows) :=
      (List.perm_ext_iff_of_nodup (hnodup'.filter _) (hnodup.filter _)).mpr hsame
    have hshort : (leaders score' n out').length ≤ m := by
      rw [(hout'.leaders_perm n).length_eq, hperm.length_eq]
      omega
    rw [hout'.filter_take, List.take_of_length_le hshort, (hout'.leaders_perm n).mem_iff,
      (hout.take_perm hlen).mem_iff]
    exact hsame x

/-! ## The n-th best -/

/-- In descending order `v` stands at place `n`. -/
def NthBest (n : ℕ) (l : List σ) (v : σ) : Prop :=
  n ≤ l.countP (v ≤ ·) ∧ l.countP (v < ·) < n

theorem NthBest.le_iff {n : ℕ} {l : List σ} {v w : σ} (h : NthBest n l v) :
    w ≤ v ↔ n ≤ l.countP (w ≤ ·) := by
  constructor
  · intro hwv
    exact h.1.trans (List.countP_mono_left fun x _ hx => by simpa using hwv.trans (by simpa using hx))
  · intro hn
    by_contra hvw
    have hle : l.countP (w ≤ ·) ≤ l.countP (v < ·) := List.countP_mono_left fun x _ hx => by
      simpa using (not_le.mp hvw).trans_le (by simpa using hx)
    exact absurd (hn.trans hle) (not_le.mpr h.2)

/-- Two lists have the same value at place `n` exactly if every bound is reached
by `n` values of the one when it is by `n` of the other. -/
theorem NthBest.eq_iff {n : ℕ} {l l' : List σ} {v v' : σ} (h : NthBest n l v)
    (h' : NthBest n l' v') :
    v = v' ↔ ∀ w, n ≤ l.countP (w ≤ ·) ↔ n ≤ l'.countP (w ≤ ·) := by
  simp only [← h.le_iff, ← h'.le_iff]
  exact ⟨fun heq w => by rw [heq], fun hall => eq_of_forall_le_iff hall⟩

/-- Place `n` of one list is at most that of another exactly if `n` values of the
other have fewer than `n` of the one above them. -/
theorem NthBest.le_iff_unbeaten {n : ℕ} {l l' : List σ} {v v' : σ} (h : NthBest n l v)
    (h' : NthBest n l' v') : v ≤ v' ↔ n ≤ l'.countP fun d => l.countP (d < ·) < n := by
  have habove : ∀ {d e : σ}, d ≤ e → l.countP (e < ·) ≤ l.countP (d < ·) := fun hde =>
    List.countP_mono_left fun x _ hx => by simpa using hde.trans_lt (by simpa using hx)
  constructor
  · intro hle
    refine h'.1.trans (List.countP_mono_left fun d _ hd => ?_)
    have hvd : v ≤ d := hle.trans (by simpa using hd)
    simpa using (habove hvd).trans_lt h.2
  · intro hn
    refine h'.le_iff.mpr (hn.trans (List.countP_mono_left fun d _ hd => ?_))
    -- below place `n` there are `n` values above
    have hmany : ¬ d < v := fun hdv => by
      have hle : l.countP (v ≤ ·) ≤ l.countP (d < ·) := List.countP_mono_left fun x _ hx => by
        simpa using hdv.trans_le (by simpa using hx)
      exact absurd (h.1.trans hle) (by simpa using hd)
    simpa using hmany

theorem OrderedDesc.nthBest {rows out : List α} (h : OrderedDesc score rows out) {i : ℕ}
    (hi : i < out.length) : NthBest (i + 1) (rows.map score) (score out[i]) := by
  simp only [NthBest, List.countP_map, Function.comp_def, ← h.1.countP_eq]
  constructor
  · calc i + 1 = (out.take (i + 1)).countP fun x => score out[i] ≤ score x := by
          rw [List.countP_eq_length.mpr, List.length_take]
          · omega
          · intro x hx
            obtain ⟨j, hj, rfl⟩ := List.mem_take_iff_getElem.mp hx
            have hji : j ≤ i := by omega
            rcases hji.lt_or_eq with hlt | rfl
            · exact decide_eq_true (List.pairwise_iff_getElem.mp h.2 j i (by omega) hi hlt)
            · exact decide_eq_true le_rfl
      _ ≤ _ := (List.take_sublist _ _).countP_le
  · have hout : out = out.take i ++ out[i] :: out.drop (i + 1) := by
      rw [List.getElem_cons_drop, List.take_append_drop]
    have hrank := (hout ▸ h : OrderedDesc score rows (out.take i ++ out[i] :: _)).rank_le
    rw [← h.rank_eq, rank, List.length_take] at hrank
    omega

/-- The worst value of rank `n` at most is the one at place `n`. -/
theorem isLeast_leaders_iff {n : ℕ} {l : List σ} (hn : n ≤ l.length) {v : σ} :
    IsLeast {x | x ∈ leaders id n l} v ↔ 0 < n ∧ NthBest n l v := by
  have hmem : ∀ x, x ∈ leaders id n l ↔ x ∈ l ∧ l.countP (x < ·) < n := by
    intro x
    rw [leaders, List.mem_filter, decide_eq_true_iff, rank, Nat.add_comm, Nat.succ_le_iff]
    rfl
  simp only [IsLeast, lowerBounds, Set.mem_ofPred_eq, hmem]
  constructor
  · rintro ⟨⟨hv, hlt⟩, hmin⟩
    refine ⟨by omega, ?_, hlt⟩
    by_contra hfew
    -- the best value below `v` would be a leader as well
    have hbelow : ∃ x ∈ l, x < v := by
      by_contra hnone
      push Not at hnone
      refine hfew (hn.trans_eq (List.countP_eq_length.mpr fun x hx => ?_).symm)
      exact decide_eq_true (hnone x hx)
    obtain ⟨x, ⟨hx, hxv⟩, hmax⟩ :=
      Set.exists_max_image {x | x ∈ l ∧ x < v} id (l.finite_toSet.subset fun x hx => hx.1)
        hbelow
    have hle : l.countP (x < ·) ≤ l.countP (v ≤ ·) := List.countP_mono_left fun y hy hxy => by
      by_contra hyv
      have hyx : y ≤ x := hmax y ⟨hy, by simpa using hyv⟩
      exact absurd (by simpa using hxy) (not_lt.mpr hyx)
    exact absurd (hmin ⟨hx, by omega⟩) (not_le.mpr hxv)
  · rintro ⟨hpos, hge, hlt⟩
    have hv : v ∈ l := by
      by_contra hnot
      have hsame : l.countP (v ≤ ·) = l.countP (v < ·) := List.countP_congr fun x hx => by
        have hne : v ≠ x := fun heq => hnot (heq ▸ hx)
        simp [hne.le_iff_lt]
      omega
    refine ⟨⟨hv, hlt⟩, fun x ⟨_, hx⟩ => ?_⟩
    by_contra hxv
    have hle : l.countP (v ≤ ·) ≤ l.countP (x < ·) := List.countP_mono_left fun y _ hy => by
      simpa using (not_le.mp hxv).trans_le (by simpa using hy)
    omega

end Ranking

/-! ## The first of a strict order -/

theorem pairwise_idxOf [BEq α] [LawfulBEq α] {l : List α} (hnodup : l.Nodup) :
    l.Pairwise fun a b => l.idxOf a < l.idxOf b := by
  refine List.pairwise_iff_getElem.mpr fun i j hi hj hij => ?_
  rwa [hnodup.idxOf_getElem, hnodup.idxOf_getElem]

theorem pair_sublist_of_idxOf_lt [BEq α] [LawfulBEq α] {l : List α} {a b : α} (hb : b ∈ l)
    (hlt : l.idxOf a < l.idxOf b) : [a, b].Sublist l := by
  induction l with
  | nil => cases hb
  | cons x l ih =>
      have hxb : x ≠ b := by
        rintro rfl
        simp at hlt
      have hbl : b ∈ l := (List.mem_cons.mp hb).resolve_left hxb.symm
      by_cases hxa : x = a
      · subst hxa
        exact (List.singleton_sublist.mpr hbl).cons_cons x
      · rw [List.idxOf_cons_ne _ hxa, List.idxOf_cons_ne _ hxb] at hlt
        exact (ih hbl (Nat.lt_of_succ_lt_succ hlt)).cons x

/-- Sorting is stable: ties come out in the order they had. -/
theorem pairwise_insertionSort_stable [BEq α] [LawfulBEq α] {r : α → α → Prop} [DecidableRel r]
    [Std.Total r] [IsTrans α r] {l : List α} (hnodup : l.Nodup) :
    (l.insertionSort r).Pairwise fun a b => r a b ∧ (r b a → l.idxOf a < l.idxOf b) := by
  have hperm := List.perm_insertionSort r l
  have hplace := pairwise_idxOf (hperm.nodup_iff.mpr hnodup)
  refine List.pairwise_iff_forall_sublist.mpr fun {a b} hab => ?_
  refine ⟨(List.pairwise_insertionSort r l).forall_sublist hab, fun hback => ?_⟩
  have ha : a ∈ l := hperm.mem_iff.mp (hab.subset (by simp))
  have hlt := hplace.forall_sublist hab
  by_contra hnot
  have hne : l.idxOf b ≠ l.idxOf a := fun heq => by
    obtain rfl := (List.idxOf_inj ha).mp heq.symm
    exact lt_irrefl _ hlt
  -- `b` stood before `a`, so it comes out before `a`
  have hba := pair_sublist_of_idxOf_lt ha (lt_of_le_of_ne (not_lt.mp hnot) hne)
  exact hlt.asymm (hplace.forall_sublist (List.pair_sublist_insertionSort hback hba))

/-- Two lists that hold the first of the same rows, as many of each, are the same. -/
theorem eq_of_leftOut {before : α → α → Prop} (hasymm : ∀ {a b}, before a b → ¬ before b a)
    {as bs : List α} (ha : as.Pairwise before) (hb : bs.Pairwise before)
    (hlen : as.length = bs.length) (hleft : ∀ a ∈ as, ∀ b ∈ bs, b ∉ as → before a b)
    (hleft' : ∀ b ∈ bs, ∀ a ∈ as, a ∉ bs → before b a) : as = bs := by
  have hnodup : ∀ {l : List α}, l.Pairwise before → l.Nodup := fun hl =>
    hl.imp fun {a b} hab (heq : a = b) => hasymm hab (heq ▸ hab)
  have hsub : as ⊆ bs := by
    intro a ha'
    by_contra hnot
    -- then one of the others is missing here
    obtain ⟨b, hb', hmissing⟩ : ∃ b ∈ bs, b ∉ as := by
      by_contra hall
      push Not at hall
      have hperm := ((hnodup hb).subperm hall).perm_of_length_le hlen.le
      exact hnot (hperm.mem_iff.mpr ha')
    exact hasymm (hleft a ha' b hb' hmissing) (hleft' b hb' a ha' hnot)
  have hperm := ((hnodup ha).subperm hsub).perm_of_length_le hlen.ge
  exact hperm.eq_of_pairwise (fun a b _ _ hab hba => absurd hba (hasymm hab)) ha hb

end Query

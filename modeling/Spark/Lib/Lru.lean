import Mathlib.Data.List.Nodup
import Mathlib.Data.List.Perm.Subperm

/-!
# Maps that forget what was used longest ago

A map under a limit is the list of its items, the last used one first. Using an item moves it to the
front, and pruning keeps the longest front that fits. What `fits` says is a parameter; where it is
closed under taking some of the items away (`Closed`), an item stays as long as it fits together with
everything used after it.
-/

namespace Spark.Lru

variable {κ ν : Type} [DecidableEq κ]

def find (k : κ) (l : List (κ × ν)) : Option ν := (l.find? fun x => decide (x.1 = k)).map Prod.snd

def without (k : κ) (l : List (κ × ν)) : List (κ × ν) := l.filter fun x => decide (x.1 ≠ k)

/-- Put `k ↦ v` in front, instead of what `k` had. -/
def use (k : κ) (v : ν) (l : List (κ × ν)) : List (κ × ν) := (k, v) :: without k l

def touch (k : κ) (l : List (κ × ν)) : List (κ × ν) := (find k l).elim l fun v => use k v l

omit [DecidableEq κ] in
/-- The longest front of at most `n` items that fits. -/
def pruneTo (fits : List (κ × ν) → Bool) (l : List (κ × ν)) : Nat → List (κ × ν)
  | 0 => []
  | n + 1 => if fits (l.take (n + 1)) then l.take (n + 1) else pruneTo fits l n

def prune (fits : List (κ × ν) → Bool) (l : List (κ × ν)) : List (κ × ν) := pruneTo fits l l.length

section Basic

variable {k k' : κ} {v v' : ν} {l front back : List (κ × ν)}

theorem find_eq_some_iff (h : (l.map Prod.fst).Nodup) : find k l = some v ↔ (k, v) ∈ l := by
  induction l with
  | nil => simp [find]
  | cons x l ih =>
    obtain ⟨k', v'⟩ := x
    obtain ⟨hk', hl⟩ := List.nodup_cons.mp h
    by_cases hk : k' = k
    · subst hk
      have hout : ∀ w, (k', w) ∉ l := fun w hw => hk' (List.mem_map.mpr ⟨(k', w), hw, rfl⟩)
      simp [find, hout, eq_comm]
    · have hfind : find k ((k', v') :: l) = find k l := by simp [find, hk]
      rw [hfind, ih hl]
      simp [Ne.symm hk]

theorem find_eq_none_iff : find k l = none ↔ k ∉ l.map Prod.fst := by
  rw [find, Option.map_eq_none_iff, List.find?_eq_none, List.mem_map]
  constructor
  · intro h ⟨x, hx, hxk⟩
    exact h x hx (decide_eq_true hxk)
  · intro h x hx hxk
    exact h ⟨x, hx, of_decide_eq_true hxk⟩

theorem mem_without {x : κ × ν} : x ∈ without k l ↔ x ∈ l ∧ x.1 ≠ k := by
  simp [without]

theorem without_sublist : (without k l).Sublist l := List.filter_sublist

theorem without_of_not_mem (h : k ∉ l.map Prod.fst) : without k l = l := by
  apply List.filter_eq_self.mpr
  intro x hx
  have hne : x.1 ≠ k := fun hk => h (List.mem_map.mpr ⟨x, hx, hk⟩)
  exact decide_eq_true hne

theorem without_append : without k (front ++ back) = without k front ++ without k back :=
  List.filter_append ..

theorem keys_use (h : (l.map Prod.fst).Nodup) : ((use k v l).map Prod.fst).Nodup := by
  refine List.nodup_cons.mpr ⟨?_, h.sublist (without_sublist.map Prod.fst)⟩
  intro hk
  obtain ⟨x, hx, hxk⟩ := List.mem_map.mp hk
  exact (mem_without.mp hx).2 hxk

theorem find_use_self : find k (use k v l) = some v := by
  simp [find, use]

theorem find_use_of_ne (hk : k ≠ k') : find k (use k' v l) = find k l := by
  induction l with
  | nil => simp [find, use, without, Ne.symm hk]
  | cons x l ih =>
    simp only [find, use, without] at ih ⊢
    rw [List.find?_cons_of_neg (by simpa using Ne.symm hk)] at ih ⊢
    by_cases hx : x.1 = k'
    · have hxk : x.1 ≠ k := fun h => hk (h.symm.trans hx)
      rw [List.filter_cons_of_neg (by simpa using hx), ih, List.find?_cons_of_neg (by simpa using hxk)]
    · rw [List.filter_cons_of_pos (by simpa using hx)]
      by_cases hxk : x.1 = k
      · simp [hxk]
      · rw [List.find?_cons_of_neg (by simpa using hxk), List.find?_cons_of_neg (by simpa using hxk), ih]

theorem find_touch : find k' (touch k l) = find k' l := by
  unfold touch
  cases h : find k l with
  | none => rfl
  | some v =>
    show find k' (use k v l) = find k' l
    by_cases hk : k' = k
    · rw [hk, find_use_self, h]
    · exact find_use_of_ne hk

/-- Touching reorders. -/
theorem touch_perm (h : (l.map Prod.fst).Nodup) : (touch k l).Perm l := by
  unfold touch
  cases hk : find k l with
  | none => exact List.Perm.refl l
  | some v =>
    obtain ⟨front, back, rfl⟩ := List.append_of_mem ((find_eq_some_iff h).mp hk)
    rw [List.map_append, List.map_cons, List.nodup_middle] at h
    have hout := (List.nodup_cons.mp h).1
    rw [List.mem_append, not_or] at hout
    have hdrop : without k ((k, v) :: back) = back := by
      show List.filter _ _ = _
      rw [List.filter_cons_of_neg (by simp)]
      exact without_of_not_mem hout.2
    show (use k v (front ++ (k, v) :: back)).Perm (front ++ (k, v) :: back)
    rw [use, without_append, hdrop, without_of_not_mem hout.1]
    exact List.perm_middle.symm

theorem keys_touch (h : (l.map Prod.fst).Nodup) : ((touch k l).map Prod.fst).Nodup := by
  unfold touch
  cases hk : find k l with
  | none => exact h
  | some v => exact keys_use h

end Basic

section Prune

variable {fits : List (κ × ν) → Bool} {l front : List (κ × ν)}

omit [DecidableEq κ] in
theorem pruneTo_isFront (n : Nat) : ∃ back, l = pruneTo fits l n ++ back := by
  induction n with
  | zero => exact ⟨l, rfl⟩
  | succ n ih =>
    simp only [pruneTo]
    split
    · exact ⟨l.drop (n + 1), (List.take_append_drop (n + 1) l).symm⟩
    · exact ih

omit [DecidableEq κ] in
theorem prune_isFront (fits : List (κ × ν) → Bool) (l : List (κ × ν)) :
    ∃ back, l = prune fits l ++ back := pruneTo_isFront l.length

omit [DecidableEq κ] in
theorem fits_pruneTo (hnil : fits [] = true) (n : Nat) : fits (pruneTo fits l n) = true := by
  induction n with
  | zero => exact hnil
  | succ n ih =>
    simp only [pruneTo]
    split
    · assumption
    · exact ih

omit [DecidableEq κ] in
theorem fits_prune (hnil : fits [] = true) : fits (prune fits l) = true := fits_pruneTo hnil l.length

omit [DecidableEq κ] in
theorem length_pruneTo_ge {m n : Nat} (hmn : m ≤ n) (hn : n ≤ l.length) (hfits : fits (l.take m) = true) :
    m ≤ (pruneTo fits l n).length := by
  induction n with
  | zero => omega
  | succ n ih =>
    simp only [pruneTo]
    split
    · rw [List.length_take]
      omega
    · -- the front of `n + 1` items does not fit, so `m` is smaller
      rename_i hno
      have hne : m ≠ n + 1 := by
        rintro rfl
        exact hno hfits
      exact ih (by omega) (by omega)

omit [DecidableEq κ] in
/-- Pruning keeps every front that fits. -/
theorem prune_keeps {back : List (κ × ν)} (hl : l = front ++ back) (hfits : fits front = true) :
    ∃ kept, prune fits l = front ++ kept := by
  have htake : l.take front.length = front := by rw [hl, List.take_left]
  have hlen : front.length ≤ (prune fits l).length := by
    apply length_pruneTo_ge _ (Nat.le_refl _)
    · rw [htake]
      exact hfits
    · rw [hl, List.length_append]
      omega
  obtain ⟨dropped, hdropped⟩ := prune_isFront fits l
  have hfront : front <+: l := ⟨back, hl.symm⟩
  have hpruned : prune fits l <+: l := ⟨dropped, hdropped.symm⟩
  obtain ⟨kept, hkept⟩ := List.prefix_of_prefix_length_le hfront hpruned hlen
  exact ⟨kept, hkept.symm⟩

omit [DecidableEq κ] in
theorem prune_of_fits (hfits : fits l = true) : prune fits l = l := by
  obtain ⟨kept, hkept⟩ := prune_keeps (List.append_nil l).symm hfits
  obtain ⟨dropped, hdropped⟩ := prune_isFront fits l
  have hlen := congrArg List.length hdropped
  rw [hkept] at hlen ⊢
  simp only [List.length_append] at hlen
  have hnil : kept = [] := List.eq_nil_of_length_eq_zero (by omega)
  rw [hnil, List.append_nil]

omit [DecidableEq κ] in
theorem pruneTo_append (back : List (κ × ν)) {n : Nat} (hn : n ≤ l.length) :
    pruneTo fits (l ++ back) n = pruneTo fits l n := by
  induction n with
  | zero => rfl
  | succ n ih =>
    have htake : (l ++ back).take (n + 1) = l.take (n + 1) := List.take_append_of_le_length hn
    simp only [pruneTo, htake]
    rw [ih (by omega)]

omit [DecidableEq κ] in
/-- Pruning takes items away from the back while what is left does not fit. -/
theorem prune_concat {x : κ × ν} (h : fits (l ++ [x]) = false) : prune fits (l ++ [x]) = prune fits l := by
  have hlen : (l ++ [x]).length = l.length + 1 := by simp
  have hall : (l ++ [x]).take (l.length + 1) = l ++ [x] := by rw [← hlen, List.take_length]
  rw [prune, hlen, pruneTo, hall, if_neg (by simp [h]), pruneTo_append [x] (Nat.le_refl _)]
  rfl

omit [DecidableEq κ] in
theorem keys_prune (h : (l.map Prod.fst).Nodup) : ((prune fits l).map Prod.fst).Nodup := by
  obtain ⟨dropped, hdropped⟩ := prune_isFront fits l
  rw [hdropped, List.map_append] at h
  exact (List.nodup_append.mp h).1

end Prune

section Runs

inductive Op (κ ν : Type) where
  | use (k : κ) (v : ν)
  | touch (k : κ)

def step (fits : List (κ × ν) → Bool) (l : List (κ × ν)) : Op κ ν → List (κ × ν)
  | .use k v => prune fits (use k v l)
  | .touch k => touch k l

def run (fits : List (κ × ν) → Bool) (l : List (κ × ν)) (ops : List (Op κ ν)) : List (κ × ν) :=
  ops.foldl (step fits) l

/-- The item that an operation makes the last used one. -/
def usedBy (l : List (κ × ν)) : Op κ ν → List (κ × ν)
  | .use k v => [(k, v)]
  | .touch k => ((find k l).map fun v => (k, v)).toList

/-- The items that the operations of a run use. -/
def used (fits : List (κ × ν) → Bool) : List (κ × ν) → List (Op κ ν) → List (κ × ν)
  | _, [] => []
  | l, op :: ops => usedBy l op ++ used fits (step fits l op) ops

/-- What fits still does with fewer items. -/
def Closed (fits : List (κ × ν) → Bool) : Prop := ∀ l l', l.Subperm l' → fits l' = true → fits l = true

variable {fits : List (κ × ν) → Bool} {l front back : List (κ × ν)} {k : κ} {v : ν}

theorem keys_step (op : Op κ ν) (h : (l.map Prod.fst).Nodup) :
    ((step fits l op).map Prod.fst).Nodup := by
  cases op with
  | use k v => exact keys_prune (keys_use h)
  | touch k => exact keys_touch h

theorem use_middle {k' : κ} {v' : ν} (hk : k ≠ k') :
    use k' v' (front ++ (k, v) :: back) =
      ((k', v') :: without k' front) ++ (k, v) :: without k' back := by
  have hkeep : without k' ((k, v) :: back) = (k, v) :: without k' back :=
    List.filter_cons_of_pos (by simpa using hk)
  rw [use, without_append, hkeep]
  rfl

theorem used_front {k' : κ} {v' : ν} :
    ((k', v') :: without k' front).Subperm (front ++ [(k', v')]) := by
  have hsub : ((k', v') :: without k' front).Subperm ((k', v') :: front) :=
    (without_sublist.cons_cons (k', v')).subperm
  exact hsub.trans (List.perm_append_singleton (k', v') front).symm.subperm

/-- One operation keeps an item behind what was in front of it and what the operation uses. -/
theorem step_keeps (op : Op κ ν) (hclosed : Closed fits)
    (hkeys : ((front ++ (k, v) :: back).map Prod.fst).Nodup)
    (hfits : fits ((k, v) :: (front ++ usedBy (front ++ (k, v) :: back) op)) = true)
    (hself : ∀ w, op = .use k w → w = v) :
    ∃ front' back', step fits (front ++ (k, v) :: back) op = front' ++ (k, v) :: back' ∧
      front'.Subperm (front ++ usedBy (front ++ (k, v) :: back) op) := by
  cases op with
  | use k' v' =>
    by_cases hk : k = k'
    · subst hk
      obtain rfl := hself v' rfl
      have hone : fits [(k, v')] = true := by
        apply hclosed _ _ _ hfits
        exact (List.cons_sublist_cons.mpr (List.nil_sublist _)).subperm
      have hsplit : use k v' (front ++ (k, v') :: back) =
          [(k, v')] ++ without k (front ++ (k, v') :: back) := rfl
      obtain ⟨kept, hkept⟩ := prune_keeps hsplit hone
      exact ⟨[], kept, hkept, List.nil_subperm⟩
    · have hone : fits (((k', v') :: without k' front) ++ [(k, v)]) = true := by
        apply hclosed _ _ _ hfits
        refine (List.perm_append_singleton _ _).subperm.trans ?_
        exact (List.subperm_cons (k, v)).mpr used_front
      have hsplit : use k' v' (front ++ (k, v) :: back) =
          (((k', v') :: without k' front) ++ [(k, v)]) ++ without k' back := by
        rw [use_middle hk]
        simp
      obtain ⟨kept, hkept⟩ := prune_keeps hsplit hone
      refine ⟨(k', v') :: without k' front, kept, ?_, used_front⟩
      show prune fits (use k' v' (front ++ (k, v) :: back)) = _
      rw [hkept]
      simp
  | touch k' =>
    by_cases hk : k = k'
    · subst hk
      have hfind : find k (front ++ (k, v) :: back) = some v :=
        (find_eq_some_iff hkeys).mpr (by simp)
      refine ⟨[], without k (front ++ (k, v) :: back), ?_, List.nil_subperm⟩
      simp [step, touch, hfind, use]
    · cases hfind : find k' (front ++ (k, v) :: back) with
      | none =>
        refine ⟨front, back, ?_, (List.sublist_append_left front _).subperm⟩
        simp [step, touch, hfind]
      | some v' =>
        refine ⟨(k', v') :: without k' front, without k' back, ?_, ?_⟩
        · rw [← use_middle hk]
          simp [step, touch, hfind]
        · simp only [usedBy, hfind, Option.map_some, Option.toList_some]
          exact used_front

/-- An item stays for as long as it fits together with what was used before it and with all that is
used after it, and is not replaced. -/
theorem run_keeps (hclosed : Closed fits) (ops : List (Op κ ν))
    (hkeys : ((front ++ (k, v) :: back).map Prod.fst).Nodup)
    (hfits : fits ((k, v) :: (front ++ used fits (front ++ (k, v) :: back) ops)) = true)
    (hself : ∀ w, .use k w ∈ ops → w = v) :
    (k, v) ∈ run fits (front ++ (k, v) :: back) ops := by
  induction ops generalizing front back with
  | nil => simp [run]
  | cons op ops ih =>
    have hfits' := hfits
    rw [used, ← List.append_assoc] at hfits'
    obtain ⟨front', back', hstep, hsub⟩ := step_keeps op hclosed hkeys
      (hclosed _ _ (List.subperm_cons _ |>.mpr (List.sublist_append_left _ _).subperm) hfits')
      fun w hw => hself w (hw ▸ List.mem_cons_self)
    rw [hstep] at hfits'
    show (k, v) ∈ run fits (step fits (front ++ (k, v) :: back) op) ops
    rw [hstep]
    apply ih
    · rw [← hstep]
      exact keys_step op hkeys
    · apply hclosed _ _ _ hfits'
      exact (List.subperm_cons _).mpr (hsub.append (List.Subperm.refl _))
    · intro w hw
      exact hself w (List.mem_cons_of_mem op hw)

theorem keys_run (ops : List (Op κ ν)) (h : (l.map Prod.fst).Nodup) :
    ((run fits l ops).map Prod.fst).Nodup := by
  induction ops generalizing l with
  | nil => exact h
  | cons op ops ih => exact ih (keys_step op h)

theorem run_append (ops ops' : List (Op κ ν)) : run fits l (ops ++ ops') = run fits (run fits l ops) ops' :=
  List.foldl_append ..

theorem used_append (ops ops' : List (Op κ ν)) :
    used fits l (ops ++ ops') = used fits l ops ++ used fits (run fits l ops) ops' := by
  induction ops generalizing l with
  | nil => rfl
  | cons op ops ih =>
    rw [List.cons_append, used, ih, used, List.append_assoc]
    rfl

/-- What a run puts in, and does not replace, is there at its end, if all that it uses fits. -/
theorem find_run (hclosed : Closed fits) (hkeys : (l.map Prod.fst).Nodup) {before after : List (Op κ ν)}
    (hfits : fits (used fits l (before ++ .use k v :: after)) = true) (hself : ∀ w, .use k w ∈ after → w = v) :
    find k (run fits l (before ++ .use k v :: after)) = some v := by
  have hkeys' : ((run fits l (before ++ .use k v :: after)).map Prod.fst).Nodup := keys_run _ hkeys
  rw [find_eq_some_iff hkeys', run_append]
  rw [used_append, used] at hfits
  have hlast : fits ((k, v) :: used fits (step fits (run fits l before) (.use k v)) after) = true := by
    apply hclosed _ _ _ hfits
    exact (List.sublist_append_right _ _).subperm
  have hone : fits [(k, v)] = true := by
    apply hclosed _ _ _ hlast
    exact (List.cons_sublist_cons.mpr (List.nil_sublist _)).subperm
  have hsplit : use k v (run fits l before) = [(k, v)] ++ without k (run fits l before) := rfl
  obtain ⟨kept, hkept⟩ := prune_keeps hsplit hone
  have hstep : step fits (run fits l before) (.use k v) = [] ++ (k, v) :: kept := hkept
  show (k, v) ∈ run fits (step fits (run fits l before) (.use k v)) after
  have hkeys₁ : ((step fits (run fits l before) (.use k v)).map Prod.fst).Nodup :=
    keys_step _ (keys_run before hkeys)
  rw [hstep] at hkeys₁ hlast ⊢
  exact run_keeps hclosed after hkeys₁ hlast hself

end Runs

end Spark.Lru

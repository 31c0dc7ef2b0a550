import Mathlib

/-!
# Joining continuations onto their roots

An item is a root or names the root it continues. A continuation is absorbed by the last root of
that key before it; without one it stands alone.

* `Joiner.step`, `Joiner.join`: the fold, with its index of roots;
* `leads`: the keys of the items that stand alone or lead;
* `Closed`, `Continues`, `Joinable`: how the end of a list may refer to what is before it;
* **`join_window`**: the join of such an end is the end of the join;
* **`joinable_of_suffix`**: with distinct keys no other end is.
-/

namespace Zeron.Rejoin

/-- How items are joined; absorbing keeps the key. -/
structure Joiner (κ ε : Type*) where
  key : ε → κ
  root : ε → Option κ
  absorb : ε → ε → ε
  key_absorb : ∀ a e, key (absorb a e) = key a

/-- What is joined so far, and where the roots are, the latest first. -/
structure State (κ ε : Type*) where
  out : List ε := []
  roots : List (κ × ℕ) := []

variable {κ ε : Type*} [DecidableEq κ] (j : Joiner κ ε)

/-- One item. -/
def Joiner.step (s : State κ ε) (e : ε) : State κ ε :=
  match j.root e with
  | some r =>
    match s.roots.lookup r with
    | some i => { s with out := s.out.modify i (j.absorb · e) }
    | none => { s with out := s.out ++ [e] }
  | none => { out := s.out ++ [e], roots := (j.key e, s.out.length) :: s.roots }

def Joiner.join (l : List ε) : List ε := (l.foldl j.step {}).out

/-- The keys of the items that are not absorbed, given the keys of the roots before. -/
def leads : List κ → List ε → List κ
  | _, [] => []
  | seen, e :: l =>
    match j.root e with
    | some r => if r ∈ seen then leads seen l else j.key e :: leads seen l
    | none => j.key e :: leads (j.key e :: seen) l

def rootKeys (l : List ε) : List κ := (l.filter fun e => (j.root e).isNone).map j.key

/-- A continuation of a root in `earlier` finds a root of that key also among `seen` or here. -/
def Closed (earlier : List κ) : List κ → List ε → Prop
  | _, [] => True
  | seen, e :: l =>
    match j.root e with
    | some r => (r ∈ earlier → r ∈ seen) ∧ Closed earlier seen l
    | none => Closed earlier (j.key e :: seen) l

/-- After the last root of key `r` everything is absorbed. -/
def Continues (l : List ε) (r : κ) : Prop :=
  ∃ l₁ e l₂, l = l₁ ++ e :: l₂ ∧ j.root e = none ∧ j.key e = r ∧
    ∀ f ∈ l₂, ∃ q, j.root f = some q ∧ q ∈ rootKeys j (l₁ ++ [e])

/-- An end `e :: l` refers to what is before it only by continuing the last item shown. -/
def Joinable (before : List ε) (e : ε) (l : List ε) : Prop :=
  match j.root e with
  | none => Closed j (rootKeys j before) [j.key e] l
  | some r => Continues j before r ∧ Closed j (rootKeys j before) [r] l

/-! ## One item -/

section Step

variable {j} {s : State κ ε} {e : ε} {r : κ} {i : ℕ}

theorem step_root (h : j.root e = none) :
    j.step s e = { out := s.out ++ [e], roots := (j.key e, s.out.length) :: s.roots } := by
  simp only [Joiner.step, h]

theorem step_found (h : j.root e = some r) (hi : s.roots.lookup r = some i) :
    j.step s e = { s with out := s.out.modify i (j.absorb · e) } := by
  simp only [Joiner.step, h, hi]

theorem step_orphan (h : j.root e = some r) (hi : s.roots.lookup r = none) :
    j.step s e = { s with out := s.out ++ [e] } := by
  simp only [Joiner.step, h, hi]

theorem lookup_eq_none {roots : List (κ × ℕ)} :
    roots.lookup r = none ↔ r ∉ roots.map Prod.fst := by
  rw [List.lookup_eq_none_iff, List.mem_map, not_exists]
  refine forall_congr' fun p => ?_
  rw [not_and, bne_iff_ne, ne_comm]

theorem lookup_cons (r k : κ) (i : ℕ) (roots : List (κ × ℕ)) :
    ((k, i) :: roots).lookup r = if r = k then some i else roots.lookup r := by
  rw [List.lookup_cons]
  by_cases h : r = k
  · rw [if_pos h, beq_iff_eq.mpr h]
  · rw [if_neg h, beq_eq_false_iff_ne.mpr h]

omit [DecidableEq κ] in
theorem map_modify (f : ε → ε) (g : ε → κ) (h : ∀ a, g (f a) = g a) (l : List ε) (i : ℕ) :
    (l.modify i f).map g = l.map g := by
  induction l generalizing i with
  | nil => simp
  | cons a l ih =>
    cases i with
    | zero => simp [h]
    | succ i => simp [ih]

theorem modify_append (f : ε → ε) (pre l : List ε) (i : ℕ) :
    (pre ++ l).modify (pre.length + i) f = pre ++ l.modify i f := by
  induction pre with
  | nil => simp
  | cons a pre ih => simpa [Nat.succ_add] using ih

theorem forall₂_modify {R : ε → ε → Prop} {f g : ε → ε} {l m : List ε}
    (hfg : ∀ a b, R a b → R (f a) (g b)) (h : List.Forall₂ R l m) (i : ℕ) :
    List.Forall₂ R (l.modify i f) (m.modify i g) := by
  induction h generalizing i with
  | nil => simp
  | cons hab hl ih =>
    cases i with
    | zero => exact List.Forall₂.cons (hfg _ _ hab) hl
    | succ i => exact List.Forall₂.cons hab (ih i)

end Step

/-! ## The keys that lead -/

theorem roots_foldl (l : List ε) (s : State κ ε) :
    (l.foldl j.step s).roots.map Prod.fst = (rootKeys j l).reverse ++ s.roots.map Prod.fst := by
  induction l generalizing s with
  | nil => rfl
  | cons e l ih =>
    rw [List.foldl_cons, ih]
    cases h : j.root e with
    | none => simp [step_root h, rootKeys, h]
    | some r =>
      cases hi : s.roots.lookup r with
      | none => simp [step_orphan h hi, rootKeys, h]
      | some i => simp [step_found h hi, rootKeys, h]

attribute [local simp] leads in
theorem keys_foldl (l : List ε) (s : State κ ε) :
    (l.foldl j.step s).out.map j.key =
      s.out.map j.key ++ leads j (s.roots.map Prod.fst) l := by
  induction l generalizing s with
  | nil => simp [leads]
  | cons e l ih =>
    rw [List.foldl_cons, ih]
    cases h : j.root e with
    | none => simp [step_root h, leads, h]
    | some r =>
      cases hi : s.roots.lookup r with
      | none =>
        have hr := lookup_eq_none.mp hi
        rw [step_orphan h hi, leads]
        simp only [h, if_neg hr]
        simp
      | some i =>
        have hr : r ∈ s.roots.map Prod.fst := by
          by_contra hr
          rw [lookup_eq_none.mpr hr] at hi
          cases hi
        rw [step_found h hi, leads]
        simp only [h, if_pos hr, map_modify _ _ fun a => j.key_absorb a e]

theorem join_roots {l : List ε} (h : ∀ e ∈ l, j.root e = none) : j.join l = l := by
  have hfold : ∀ (l : List ε) (s : State κ ε), (∀ e ∈ l, j.root e = none) →
      (l.foldl j.step s).out = s.out ++ l := by
    intro l
    induction l with
    | nil => simp
    | cons e l ih =>
      intro s h
      rw [List.foldl_cons, ih _ fun f hf => h f (List.mem_cons_of_mem e hf),
        step_root (h e List.mem_cons_self)]
      simp
  exact hfold l {} h

theorem keys_join (l : List ε) : (j.join l).map j.key = leads j [] l := keys_foldl j l {}

theorem leads_sublist (seen : List κ) (l : List ε) : (leads j seen l).Sublist (l.map j.key) := by
  induction l generalizing seen with
  | nil => exact List.Sublist.slnil
  | cons e l ih =>
    rw [leads, List.map_cons]
    cases j.root e with
    | none => exact (ih _).cons_cons _
    | some r =>
      dsimp only
      split_ifs with hr
      · exact (ih seen).cons _
      · exact (ih seen).cons_cons _

theorem leads_congr {seen seen' : List κ} (h : ∀ r, r ∈ seen ↔ r ∈ seen') (l : List ε) :
    leads j seen l = leads j seen' l := by
  induction l generalizing seen seen' with
  | nil => rfl
  | cons e l ih =>
    rw [leads, leads]
    cases j.root e with
    | none =>
      dsimp only
      rw [@ih _ (j.key e :: seen') fun r => by simp [h r]]
    | some r => simp only [h r, ih h]

theorem leads_append (l l' : List ε) (seen : List κ) :
    leads j seen (l ++ l') = leads j seen l ++ leads j (rootKeys j l ++ seen) l' := by
  induction l generalizing seen with
  | nil => simp [leads, rootKeys]
  | cons e l ih =>
    rw [List.cons_append, leads, leads]
    cases h : j.root e with
    | none =>
      have hroots : ∀ r, r ∈ rootKeys j l ++ j.key e :: seen ↔ r ∈ rootKeys j (e :: l) ++ seen := by
        intro r
        simp [rootKeys, h, or_left_comm]
      dsimp only
      rw [ih, leads_congr j hroots, List.cons_append]
    | some r =>
      have hroots : rootKeys j (e :: l) = rootKeys j l := by simp [rootKeys, h]
      dsimp only
      rw [ih, hroots]
      split_ifs <;> simp

variable {earlier seen seen' : List κ}

theorem leads_antitone (h : ∀ r ∈ seen, r ∈ seen') (l : List ε) :
    (leads j seen' l).Sublist (leads j seen l) := by
  induction l generalizing seen seen' with
  | nil => exact List.Sublist.slnil
  | cons e l ih =>
    rw [leads, leads]
    cases j.root e with
    | none =>
      refine (ih fun r hr => ?_).cons_cons _
      rcases List.mem_cons.mp hr with rfl | hr
      · exact List.mem_cons_self
      · exact List.mem_cons_of_mem _ (h r hr)
    | some r =>
      dsimp only
      split_ifs with hr' hr hr
      · exact ih h
      · exact (ih h).cons _
      · exact absurd (h r hr) hr'
      · exact (ih h).cons_cons _

/-- **The leads stay the same exactly if the list is closed.** -/
theorem leads_eq_iff (h : ∀ r, r ∈ seen' ↔ r ∈ seen ∨ r ∈ earlier) (l : List ε) :
    leads j seen' l = leads j seen l ↔ Closed j earlier seen l := by
  induction l generalizing seen seen' with
  | nil => exact iff_of_true rfl trivial
  | cons e l ih =>
    rw [leads, leads, Closed]
    cases j.root e with
    | none =>
      dsimp only
      rw [List.cons_inj_right]
      exact ih fun r => by simp [h r, or_assoc]
    | some r =>
      dsimp only
      by_cases hr : r ∈ seen
      · rw [if_pos hr, if_pos ((h r).mpr (Or.inl hr)), ih h]
        simp [hr]
      · by_cases he : r ∈ earlier
        · have hlen := (leads_antitone j (fun r hr => (h r).mpr (Or.inl hr)) l).length_le
          rw [if_neg hr, if_pos ((h r).mpr (Or.inr he))]
          refine iff_of_false (fun heq => ?_) fun hc => hr (hc.1 he)
          rw [heq, List.length_cons] at hlen
          omega
        · rw [if_neg hr, if_neg fun hs => ((h r).mp hs).elim hr he, List.cons_inj_right, ih h]
          simp [hr, he]

/-! ## Ends of a list -/

section Window

variable {j} {R : ε → ε → Prop} {s t : State κ ε} {before l : List ε} {e e' : ε} {d : ℕ}

/-- The join of an end, `t`, beside that of the whole list. -/
structure Behind (R : ε → ε → Prop) (earlier : List κ) (d : ℕ) (s t : State κ ε) : Prop where
  out : ∃ pre shown, s.out = pre ++ shown ∧ pre.length = d ∧ List.Forall₂ R shown t.out
  found : ∀ r i, t.roots.lookup r = some i → s.roots.lookup r = some (d + i)
  missed : ∀ r, t.roots.lookup r = none → r ∉ earlier → s.roots.lookup r = none

/-- One more item. -/
theorem Behind.step (h : Behind R earlier d s t) (hrefl : ∀ a, R a a)
    (habsorb : ∀ a b e, R a b → R (j.absorb a e) (j.absorb b e))
    (hc : ∀ r, j.root e = some r → r ∈ earlier → r ∈ t.roots.map Prod.fst) :
    Behind R earlier d (j.step s e) (j.step t e) := by
  obtain ⟨pre, shown, hout, rfl, hshown⟩ := h.out
  have happend : ∃ pre' shown', s.out ++ [e] = pre' ++ shown' ∧ pre'.length = pre.length ∧
      List.Forall₂ R shown' (t.out ++ [e]) :=
    ⟨pre, shown ++ [e], by rw [hout, List.append_assoc], rfl,
      List.rel_append hshown (List.Forall₂.cons (hrefl e) List.Forall₂.nil)⟩
  cases hroot : j.root e with
  | none =>
    rw [step_root hroot, step_root hroot]
    refine ⟨happend, fun r i hi => ?_, fun r hr he => ?_⟩
    · have hlen : s.out.length = pre.length + t.out.length := by
        rw [hout, List.length_append, hshown.length_eq]
      rw [lookup_cons] at hi ⊢
      split_ifs at hi ⊢ with hk
      · rw [hlen, Option.some.inj hi]
      · exact h.found r i hi
    · rw [lookup_cons] at hr ⊢
      split_ifs at hr ⊢ with hk
      exact h.missed r hr he
  | some r =>
    cases hi : t.roots.lookup r with
    | some i =>
      rw [step_found hroot hi, step_found hroot (h.found r i hi)]
      refine ⟨⟨pre, shown.modify i (j.absorb · e), ?_, rfl, ?_⟩, h.found, h.missed⟩
      · rw [hout, modify_append]
      · exact forall₂_modify (fun a b hab => habsorb a b e hab) hshown i
    | none =>
      have hr : r ∉ earlier := fun hr => lookup_eq_none.mp hi (hc r hroot hr)
      rw [step_orphan hroot hi, step_orphan hroot (h.missed r hi hr)]
      exact ⟨happend, h.found, h.missed⟩

theorem Behind.run (h : Behind R earlier d s t) (hrefl : ∀ a, R a a)
    (habsorb : ∀ a b e, R a b → R (j.absorb a e) (j.absorb b e))
    (hc : Closed j earlier (t.roots.map Prod.fst) l) :
    Behind R earlier d (l.foldl j.step s) (l.foldl j.step t) := by
  induction l generalizing s t with
  | nil => exact h
  | cons e l ih =>
    rw [Closed] at hc
    rw [List.foldl_cons, List.foldl_cons]
    cases hroot : j.root e with
    | none =>
      rw [hroot] at hc
      refine ih (h.step hrefl habsorb fun r hr => by rw [hroot] at hr; cases hr) ?_
      rw [step_root hroot]
      exact hc
    | some r =>
      rw [hroot] at hc
      have hstep : (j.step t e).roots = t.roots := by
        cases hi : t.roots.lookup r with
        | none => rw [step_orphan hroot hi]
        | some i => rw [step_found hroot hi]
      refine ih (h.step hrefl habsorb fun r' hr' => ?_) ?_
      · rw [hroot] at hr'
        obtain rfl := Option.some.inj hr'
        exact hc.1
      · rw [hstep]
        exact hc.2

theorem foldl_absorbed (h : ∀ f ∈ l, ∃ q, j.root f = some q ∧ q ∈ s.roots.map Prod.fst) :
    (l.foldl j.step s).roots = s.roots ∧
      (l.foldl j.step s).out.map j.key = s.out.map j.key := by
  induction l generalizing s with
  | nil => exact ⟨rfl, rfl⟩
  | cons f l ih =>
    obtain ⟨q, hroot, hq⟩ := h f List.mem_cons_self
    obtain ⟨i, hi⟩ : ∃ i, s.roots.lookup q = some i := by
      by_contra hnone
      exact lookup_eq_none.mp (Option.eq_none_iff_forall_ne_some.mpr (not_exists.mp hnone)) hq
    have hstep := step_found hroot hi
    have hroots : (j.step s f).roots = s.roots := by rw [hstep]
    have hkeys : (j.step s f).out.map j.key = s.out.map j.key := by
      rw [hstep]
      exact map_modify _ _ (fun a => j.key_absorb a f) s.out i
    have hrest := @ih (j.step s f) fun g hg => by
      rw [hroots]
      exact h g (List.mem_cons_of_mem f hg)
    rw [List.foldl_cons, hrest.1, hrest.2]
    exact ⟨hroots, hkeys⟩

theorem last_of_continues {r : κ} (h : Continues j before r) :
    ∃ (pre : List ε) (a : ε), (before.foldl j.step {}).out = pre ++ [a] ∧ j.key a = r ∧
      (before.foldl j.step {}).roots.lookup r = some pre.length := by
  obtain ⟨l₁, e, l₂, rfl, hroot, rfl, hl₂⟩ := h
  have hfold : (l₁ ++ e :: l₂).foldl j.step {} =
      l₂.foldl j.step (j.step (l₁.foldl j.step {}) e) := by
    rw [List.foldl_append, List.foldl_cons]
  have hs : j.step (l₁.foldl j.step {}) e = (l₁ ++ [e]).foldl j.step {} := by
    rw [List.foldl_append, List.foldl_cons, List.foldl_nil]
  have habsorbed := @foldl_absorbed _ _ _ j (j.step (l₁.foldl j.step {}) e) l₂ fun f hf => by
    obtain ⟨q, hq, hmem⟩ := hl₂ f hf
    refine ⟨q, hq, ?_⟩
    rw [hs, roots_foldl]
    simpa using hmem
  rw [hfold]
  generalize l₂.foldl j.step (j.step (l₁.foldl j.step {}) e) = s at habsorbed
  rw [step_root hroot] at habsorbed
  obtain ⟨hroots, hkeys⟩ := habsorbed
  rw [List.map_append, List.map_singleton] at hkeys
  obtain ⟨pre, last, hout, hpre, hlast⟩ := List.map_eq_append_iff.mp hkeys
  obtain ⟨a, rfl, ha⟩ := List.map_eq_singleton_iff.mp hlast
  refine ⟨pre, a, hout, ha, ?_⟩
  have hlen : pre.length = (l₁.foldl j.step {}).out.length := by
    simpa using congrArg List.length hpre
  rw [hroots, hlen]
  simp

/-- **The join of a joinable end is the end of the join.** `e'` is the first item of the end, made
a root of the key it continues. -/
theorem join_window (hrefl : ∀ a, R a a)
    (habsorb : ∀ a b e, R a b → R (j.absorb a e) (j.absorb b e)) (hroot' : j.root e' = none)
    (hkey' : j.key e' = (j.root e).getD (j.key e)) (hfirst : j.root e = none → R e e')
    (hlater : ∀ a, j.root e = some (j.key a) → R (j.absorb a e) e')
    (h : Joinable j before e l) :
    ∃ pre shown, j.join (before ++ e :: l) = pre ++ shown ∧
      List.Forall₂ R shown (j.join (e' :: l)) := by
  have hearlier : (before.foldl j.step {}).roots.map Prod.fst = (rootKeys j before).reverse := by
    simpa using roots_foldl j before {}
  have hmissed : ∀ r, r ∉ rootKeys j before →
      (before.foldl j.step {}).roots.lookup r = none := fun r hr => by
    rw [lookup_eq_none, hearlier, List.mem_reverse]
    exact hr
  have hstart : ∃ d, Behind R (rootKeys j before) d (j.step (before.foldl j.step {}) e)
      (j.step {} e') ∧ Closed j (rootKeys j before) [j.key e'] l := by
    rw [Joinable] at h
    cases hroot : j.root e with
    | none =>
      rw [hroot] at h hkey'
      rw [Option.getD_none] at hkey'
      refine ⟨(before.foldl j.step {}).out.length, ?_, by rw [hkey']; exact h⟩
      rw [step_root hroot, step_root hroot', hkey']
      refine ⟨⟨_, [e], rfl, rfl, List.Forall₂.cons (hfirst hroot) List.Forall₂.nil⟩,
        fun r i hi => ?_, fun r hr he => ?_⟩
      · rw [lookup_cons] at hi ⊢
        split_ifs at hi ⊢ with hk
        · rw [← Option.some.inj hi]
          rfl
        · cases hi
      · rw [lookup_cons] at hr ⊢
        split_ifs at hr ⊢ with hk
        exact hmissed r he
    | some r =>
      rw [hroot] at h hkey'
      obtain ⟨hcont, hclosed⟩ := h
      obtain ⟨pre, a, hout, ha, hlast⟩ := last_of_continues hcont
      refine ⟨pre.length, ?_, by rw [hkey']; exact hclosed⟩
      have hR : R (j.absorb a e) e' := hlater a (by rw [hroot, ha])
      have hmodify : (before.foldl j.step {}).out.modify pre.length (j.absorb · e) =
          pre ++ [j.absorb a e] := by
        rw [hout]
        exact modify_append (j.absorb · e) pre [a] 0
      rw [step_found hroot hlast, step_root hroot', hkey', hmodify]
      refine ⟨⟨pre, _, rfl, rfl, List.Forall₂.cons hR List.Forall₂.nil⟩, fun q i hi => ?_,
        fun q _ hq => hmissed q hq⟩
      rw [lookup_cons] at hi
      split_ifs at hi with hq
      · rw [hq, ← Option.some.inj hi]
        exact hlast
      · cases hi
  obtain ⟨d, hbehind, hclosed⟩ := hstart
  have hseen : (j.step {} e').roots.map Prod.fst = [j.key e'] := by
    rw [step_root hroot']
    rfl
  have hrun := hbehind.run hrefl habsorb (by rw [hseen]; exact hclosed)
  obtain ⟨pre, shown, hout, -, hshown⟩ := hrun.out
  refine ⟨pre, shown, ?_, hshown⟩
  rw [Joiner.join, List.foldl_append, List.foldl_cons]
  exact hout

end Window

/-! ## Distinct keys -/

section Distinct

variable {j} {before l : List ε} {e e' : ε} {r k : κ}

theorem absorbed_of_leads_nil (h : leads j seen l = []) :
    ∀ f ∈ l, ∃ q, j.root f = some q ∧ q ∈ seen := by
  induction l generalizing seen with
  | nil => simp
  | cons f l ih =>
    rw [leads] at h
    cases hroot : j.root f with
    | none =>
      rw [hroot] at h
      cases h
    | some q =>
      rw [hroot] at h
      dsimp only at h
      split_ifs at h with hq
      intro g hg
      rcases List.mem_cons.mp hg with rfl | hg
      · exact ⟨q, hroot, hq⟩
      · exact ih h g hg

theorem continues_of_last {pre : List κ} (hnodup : (before.map j.key).Nodup)
    (hr : r ∈ rootKeys j before) (h : leads j [] before = pre ++ [r]) : Continues j before r := by
  obtain ⟨f, hf, rfl⟩ := List.mem_map.mp hr
  obtain ⟨hmem, hroot⟩ := List.mem_filter.mp hf
  rw [Option.isNone_iff_eq_none] at hroot
  obtain ⟨l₁, l₂, rfl⟩ := List.append_of_mem hmem
  rw [List.map_append, List.map_cons] at hnodup
  obtain ⟨-, hcons, hdisjoint⟩ := List.nodup_append'.mp hnodup
  have h₁ : j.key f ∉ leads j [] l₁ := fun hl =>
    hdisjoint ((leads_sublist j [] l₁).subset hl) List.mem_cons_self
  have h₂ : j.key f ∉ leads j (j.key f :: (rootKeys j l₁ ++ [])) l₂ := fun hl =>
    (List.nodup_cons.mp hcons).1 ((leads_sublist j _ l₂).subset hl)
  rw [leads_append, leads, hroot] at h
  obtain ⟨-, -, hnil⟩ := (List.append_cons_inj_of_notMem h₁ h₂).mp h
  refine ⟨l₁, f, l₂, rfl, hroot, rfl, fun g hg => ?_⟩
  obtain ⟨q, hq, hmem⟩ := absorbed_of_leads_nil hnil g hg
  refine ⟨q, hq, ?_⟩
  simpa [rootKeys, hroot, or_comm] using hmem

theorem mem_leads (hself : ∀ f ∈ l, j.root f ≠ some (j.key f))
    (hseen : ∀ q ∈ seen, q = k ∨ q ∈ seen') (h : k ∈ leads j seen' l) : k ∈ leads j seen l := by
  induction l generalizing seen seen' with
  | nil => exact h
  | cons f l ih =>
    rw [leads] at h ⊢
    cases hroot : j.root f with
    | none =>
      rw [hroot] at h
      rcases List.mem_cons.mp h with rfl | h
      · exact List.mem_cons_self
      · refine List.mem_cons_of_mem _ (ih (fun g hg => hself g (List.mem_cons_of_mem f hg)) ?_ h)
        intro q hq
        rcases List.mem_cons.mp hq with rfl | hq
        · exact Or.inr List.mem_cons_self
        · exact (hseen q hq).imp_right (List.mem_cons_of_mem _)
    | some q =>
      rw [hroot] at h
      dsimp only at h ⊢
      have htail : k ∈ leads j seen' l → k ∈ leads j seen l :=
        ih (fun g hg => hself g (List.mem_cons_of_mem f hg)) hseen
      by_cases hq' : q ∈ seen'
      · rw [if_pos hq'] at h
        split_ifs
        · exact htail h
        · exact List.mem_cons_of_mem _ (htail h)
      · rw [if_neg hq'] at h
        rcases List.mem_cons.mp h with rfl | h
        · have hne : q ≠ j.key f := fun he => hself f List.mem_cons_self (by rw [hroot, he])
          have hq : q ∉ seen := fun hq => (hseen q hq).elim hne hq'
          rw [if_neg hq]
          exact List.mem_cons_self
        · split_ifs
          · exact htail h
          · exact List.mem_cons_of_mem _ (htail h)

/-- **With distinct keys only a joinable end's join is the end of the join.** -/
theorem joinable_of_suffix (hroot' : j.root e' = none)
    (hkey' : j.key e' = (j.root e).getD (j.key e)) (hnodup : ((before ++ e :: l).map j.key).Nodup)
    (hself : ∀ f ∈ e :: l, j.root f ≠ some (j.key f))
    (h : (j.join (e' :: l)).map j.key <:+ (j.join (before ++ e :: l)).map j.key) :
    Joinable j before e l := by
  rw [List.map_append, List.map_cons] at hnodup
  obtain ⟨hbefore, hcons, hdisjoint⟩ := List.nodup_append'.mp hnodup
  obtain ⟨hkey, hl⟩ := List.nodup_cons.mp hcons
  have hA : ∀ q ∈ leads j [] before, q ∈ before.map j.key :=
    fun q hq => (leads_sublist j [] before).subset hq
  have hB : ∀ seen, ∀ q ∈ leads j seen l, q ∈ l.map j.key :=
    fun seen q hq => (leads_sublist j seen l).subset hq
  have hkeyA : j.key e ∉ leads j [] before := fun hq => hdisjoint (hA _ hq) List.mem_cons_self
  obtain ⟨p, hp⟩ := h
  rw [keys_join, keys_join, leads_append, List.append_nil] at hp
  have hwindow : leads j [] (e' :: l) = j.key e' :: leads j [j.key e'] l := by
    rw [leads, hroot']
  rw [hwindow, hkey'] at hp
  rw [Joinable]
  cases hroot : j.root e with
  | none =>
    rw [hroot, Option.getD_none, leads, hroot] at hp
    have hkeyB := fun hq => hkey (hB (j.key e :: rootKeys j before) _ hq)
    obtain ⟨-, -, he⟩ := (List.append_cons_inj_of_notMem hkeyA hkeyB).mp hp.symm
    exact (leads_eq_iff j (fun r => by simp) l).mp he
  | some r =>
    rw [hroot, Option.getD_some, leads, hroot] at hp
    dsimp only at hp ⊢
    by_cases hr : r ∈ rootKeys j before
    · -- The root was seen: the end continues it, and nothing else is shown between.
      rw [if_pos hr] at hp
      have hle := (@leads_antitone _ _ _ j [r] (rootKeys j before) (by simpa using hr) l).length_le
      have hboth : ∀ x : List κ, (∀ q ∈ x, q ∈ leads j [] before) →
          (∀ q ∈ x, q ∈ leads j [r] l) → x = [] := fun x h₁ h₂ =>
        List.eq_nil_iff_forall_not_mem.mpr fun q hq =>
          hdisjoint (hA q (h₁ q hq)) (List.mem_cons_of_mem _ (hB [r] q (h₂ q hq)))
      obtain ⟨x, hlead, hx⟩ | ⟨x, -, hx⟩ := List.append_eq_append_iff.mp hp
      · cases x with
        | nil =>
          have hlen := congrArg List.length hx
          simp only [List.nil_append, List.length_cons] at hlen
          omega
        | cons q x =>
          rw [List.cons_append, List.cons.injEq] at hx
          obtain ⟨rfl, hx⟩ := hx
          obtain rfl : x = [] := hboth x (fun q hq => by rw [hlead]; simp [hq])
            fun q hq => by rw [hx]; simp [hq]
          exact ⟨continues_of_last hbefore hr hlead,
            (leads_eq_iff j (fun q => by simpa using fun h => h ▸ hr) l).mp hx.symm⟩
      · have hlen := congrArg List.length hx
        simp only [List.length_append, List.length_cons] at hlen
        omega
    · -- An orphan: its own key is shown.
      rw [if_neg hr] at hp
      have hne : j.key e ≠ r := fun he => hself e List.mem_cons_self (by rw [hroot, he])
      have hmem : j.key e ∈ p := by
        have hmem : j.key e ∈ p ++ r :: leads j [r] l := by
          rw [hp]
          simp
        rcases List.mem_append.mp hmem with hmem | hmem
        · exact hmem
        · exact absurd (hB [r] _ ((List.mem_cons.mp hmem).resolve_left hne)) hkey
      obtain ⟨p₁, p₂, rfl⟩ := List.append_of_mem hmem
      have hkeyB := fun hq => hkey (hB (rootKeys j before) _ hq)
      rw [List.append_assoc, List.cons_append] at hp
      obtain ⟨-, -, he⟩ := (List.append_cons_inj_of_notMem hkeyA hkeyB).mp hp.symm
      have hrB : r ∈ leads j (rootKeys j before) l := by
        rw [he]
        simp
      have hrW : r ∈ leads j [r] l :=
        mem_leads (fun f hf => hself f (List.mem_cons_of_mem e hf)) (by simp) hrB
      have hdup : (leads j (rootKeys j before) l).Nodup := (leads_sublist j _ l).nodup hl
      rw [he] at hdup
      exact absurd hrW (List.nodup_cons.mp (List.nodup_append'.mp hdup).2.1).1

end Distinct

end Zeron.Rejoin

import Octopos.Lib.Bytes
import Mathlib.Data.List.Chain

/-!
# Circular lists by links

A circular list with two links for each element (`Circle`). `frontPrev` and `frontNext` are the
links after an element was taken out of the list and put behind its head.
-/

namespace Octopos

/-- The elements of a list follow each other by the links. -/
def Linked {α : Type} (prev next : α → α) (l : List α) : Prop :=
  l.IsChain fun a b => next a = b ∧ prev b = a

/-- The list of the links, without its head. -/
structure Circle {α : Type} (prev next : α → α) (head : α) (l : List α) : Prop where
  nodup : (head :: l).Nodup
  links : Linked prev next (head :: l ++ [head])

section Linked

variable {α : Type} {prev next prev' next' : α → α} {a b head : α} {l xs ys : List α}

theorem Linked.pred (h : Linked prev next (l ++ [a])) (hl : l ≠ []) :
    prev a ∈ l ∧ next (prev a) = a := by
  obtain ⟨xs, x, rfl⟩ := List.eq_nil_or_concat l |>.resolve_left hl
  rw [List.concat_eq_append, List.append_assoc] at h
  obtain ⟨hnext, hprev⟩ := (List.isChain_append_cons_cons.1 h).2.1
  rw [hprev]
  exact ⟨by simp, hnext⟩

theorem Linked.succ (h : Linked prev next (a :: b :: l)) : next a = b ∧ prev b = a :=
  (List.isChain_cons_cons.1 h).1

theorem Linked.congr (h : Linked prev next l)
    (hnext : ∀ a ∈ l, next a ∈ l.tail → prev (next a) = a → next' a = next a)
    (hprev : ∀ b ∈ l.tail, prev b ∈ l → next (prev b) = b → prev' b = prev b) :
    Linked prev' next' l := by
  refine List.IsChain.imp_of_mem_tail_imp (fun a b ha hb hab => ?_) h
  obtain ⟨rfl, hback⟩ := hab
  refine ⟨hnext a ha hb hback, ?_⟩
  rw [hprev _ hb (by rwa [hback]) (by rw [hback]), hback]

theorem Linked.iterate (h : Linked prev next (a :: l)) {t : ℕ} (ht : t < (a :: l).length) :
    next^[t] a = (a :: l)[t] := by
  induction t with
  | zero => rfl
  | succ t ih =>
    rw [Function.iterate_succ_apply', ih (Nat.lt_of_succ_lt ht)]
    exact (List.isChain_iff_getElem.1 h t ht).1

section

variable (h : Circle prev next head l)
include h

theorem Circle.iterate {t : ℕ} (ht : t < (head :: l).length) : next^[t] head = (head :: l)[t] := by
  rw [Linked.iterate h.links (ht.trans_le (by simp))]
  exact List.getElem_append_left ht

theorem Circle.iterate_length : next^[(head :: l).length] head = head := by
  rw [Linked.iterate h.links (by simp)]
  simp

/-- The links lead to each element once before they come back to the head. -/
theorem Circle.visits (ha : a ∈ head :: l) : ∃! t, t < (head :: l).length ∧ next^[t] head = a := by
  obtain ⟨t, ht, rfl⟩ := List.getElem_of_mem ha
  refine ⟨t, ⟨ht, h.iterate ht⟩, ?_⟩
  rintro t' ⟨ht', heq⟩
  rw [h.iterate ht'] at heq
  exact (h.nodup.getElem_inj_iff).1 heq

theorem Circle.inverse (ha : a ∈ head :: l) : prev (next a) = a ∧ next (prev a) = a := by
  have hchain := List.isChain_iff_getElem.1 h.links
  constructor
  · obtain ⟨t, ht, rfl⟩ := List.getElem_of_mem ha
    have hlink := hchain t (by simpa using ht)
    rw [List.getElem_append_left ht] at hlink
    rw [hlink.1, hlink.2]
  · -- in front of the head stands the last element
    have htail : a ∈ l ++ [head] := by
      rcases List.mem_cons.1 ha with rfl | ha
      · exact List.mem_append_right l (List.mem_singleton_self _)
      · exact List.mem_append_left _ ha
    obtain ⟨t, ht, rfl⟩ := List.getElem_of_mem htail
    have hlink := hchain t (by simpa using ht)
    simp only [List.cons_append, List.getElem_cons_succ] at hlink
    rw [hlink.2, hlink.1]

end

end Linked

section Front

variable {α : Type} [DecidableEq α] {prev next : α → α} {head first a : α} {l xs ys : List α}

theorem Linked.unlink (h : Linked prev next (xs ++ a :: ys)) (hxs : xs ≠ []) (hys : ys ≠ [])
    (hax : a ∉ xs) (hay : a ∉ ys) :
    Linked (upd prev (next a) (prev a)) (upd next (prev a) (next a)) (xs ++ ys) := by
  obtain ⟨hleft, hright⟩ := List.isChain_split.1 h
  obtain ⟨-, hpred⟩ := Linked.pred hleft hxs
  obtain ⟨b, ys, rfl⟩ := List.exists_cons_of_ne_nil hys
  obtain ⟨hb, hsucc⟩ := Linked.succ hright
  -- links that lead to the element are not in the rest
  have hrest : ∀ {l : List α}, Linked prev next l → a ∉ l →
      Linked (upd prev (next a) (prev a)) (upd next (prev a) (next a)) l := by
    intro l hl hal
    refine hl.congr (fun u _ hmem _ => upd_of_ne ?_) fun v _ hmem _ => upd_of_ne ?_
    · rintro rfl
      exact hal (hpred ▸ List.mem_of_mem_tail hmem)
    · rintro rfl
      rw [hb, hsucc] at hmem
      exact hal hmem
  refine List.isChain_append.2 ⟨hrest hleft.left_of_append hax, hrest hright.tail hay, fun u hu v hv => ?_⟩
  obtain ⟨-, hprev⟩ := (List.isChain_append.1 hleft).2.2 u hu a rfl
  obtain rfl : b = v := Option.some.inj hv
  rw [← hprev, hb]
  exact ⟨upd_self _ _ _, upd_self _ _ _⟩

theorem Linked.insert (h : Linked prev next (head :: first :: l)) (hah : a ≠ head)
    (haf : a ≠ first) (hal : a ∉ l) (hfl : first ∉ l) :
    Linked (upd (upd prev a head) first a) (upd (upd next a first) head a)
      (head :: a :: first :: l) := by
  obtain ⟨⟨hnext, hprev⟩, hrest⟩ := List.isChain_cons_cons.1 h
  have hmem : ∀ {u}, u ∈ first :: l → u ≠ a := by
    rintro u hu rfl
    rcases List.mem_cons.1 hu with rfl | hu
    · exact haf rfl
    · exact hal hu
  refine List.isChain_cons_cons.2 ⟨⟨upd_self _ _ _, ?_⟩, List.isChain_cons_cons.2 ⟨⟨?_, upd_self _ _ _⟩,
    Linked.congr hrest (fun u hu hv _ => ?_) fun v hv hu _ => ?_⟩⟩
  · rw [upd_of_ne haf, upd_self]
  · rw [upd_of_ne hah, upd_self]
  · rw [upd_of_ne, upd_of_ne (hmem hu)]
    rintro rfl
    exact hfl (hnext ▸ hv)
  · rw [upd_of_ne, upd_of_ne (hmem (List.mem_cons_of_mem _ hv))]
    rintro rfl
    exact hfl hv

/-- The link before an element that was put behind the head. -/
def frontPrev (prev next : α → α) (head a : α) : α → α :=
  upd (upd (upd prev (next a) (prev a)) a head) (upd next (prev a) (next a) head) a

/-- The link behind an element that was put behind the head. -/
def frontNext (prev next : α → α) (head a : α) : α → α :=
  upd (upd (upd next (prev a) (next a)) a (upd next (prev a) (next a) head)) head a

theorem Circle.front (h : Circle prev next head (xs ++ a :: ys)) :
    Circle (frontPrev prev next head a) (frontNext prev next head a) head (a :: (xs ++ ys)) := by
  obtain ⟨hnodup, hlinks⟩ := h
  obtain ⟨hhead, hlist⟩ := List.nodup_cons.1 hnodup
  rw [List.mem_append, List.mem_cons, not_or, not_or] at hhead
  obtain ⟨hhx, hha, hhy⟩ := hhead
  have hperm : (a :: (xs ++ ys)).Nodup := (List.nodup_middle).1 hlist
  obtain ⟨haxy, hxy⟩ := List.nodup_cons.1 hperm
  rw [List.mem_append, not_or] at haxy
  rw [List.cons_append, List.append_assoc, List.cons_append, ← List.cons_append] at hlinks
  have hunlink := hlinks.unlink (List.cons_ne_nil _ _) (List.append_ne_nil_of_right_ne_nil _ (List.cons_ne_nil _ _))
    (by rw [List.mem_cons, not_or]; exact ⟨Ne.symm hha, haxy.1⟩)
    (by rw [List.mem_append, List.mem_singleton, not_or]; exact ⟨haxy.2, Ne.symm hha⟩)
  refine ⟨List.nodup_cons.2 ⟨?_, hperm⟩, ?_⟩
  · rw [List.mem_cons, List.mem_append, not_or, not_or]
    exact ⟨hha, hhx, hhy⟩
  · rw [List.cons_append, ← List.append_assoc] at hunlink
    have hall : (xs ++ ys ++ [head]).Nodup := by
      rw [List.nodup_append]
      refine ⟨hxy, List.nodup_singleton _, fun u hu v hv => ?_⟩
      rintro rfl
      rw [List.mem_singleton] at hv
      subst hv
      exact (List.mem_append.1 hu).elim hhx hhy
    have hout : a ∉ xs ++ ys ++ [head] := by
      rw [List.mem_append, List.mem_append, List.mem_singleton, not_or, not_or]
      exact ⟨haxy, Ne.symm hha⟩
    rw [List.cons_append, List.cons_append]
    obtain ⟨first, d, hd⟩ := List.exists_cons_of_ne_nil (List.append_ne_nil_of_right_ne_nil (xs ++ ys)
      (List.cons_ne_nil head []))
    rw [hd] at hunlink hall hout ⊢
    rw [List.mem_cons, not_or] at hout
    have hfirst := (Linked.succ hunlink).1
    unfold frontPrev frontNext
    rw [hfirst]
    exact hunlink.insert (Ne.symm hha) hout.1 hout.2 (List.nodup_cons.1 hall).1

end Front

end Octopos

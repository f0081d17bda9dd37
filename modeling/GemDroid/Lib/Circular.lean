import Mathlib.Data.List.Chain
import Mathlib.Data.List.Nodup

/-! Circular doubly linked lists.

Nodes are linked through two fields, `next` and `prev`. `Circular L h l` says that going
round from the node `h` by `next` passes the nodes `l` in order and comes back to `h`, and
that `prev` goes the other way. The list may be read from any of its nodes, so insertion
behind a node and removal of a node are proved where they are simplest, at the head. -/
namespace GemDroid.Lib
open Function List

variable {α : Type}

variable {h e a x : α}

/-- The two link fields of the nodes. -/
structure Links (α : Type) where
  next : α → α
  prev : α → α

open Links

namespace Links

section Fields
variable [DecidableEq α]

def insert (L : Links α) (e h : α) : Links α where
  next := update (update L.next e (L.next h)) h e
  prev := update (update L.prev e h) (L.next h) e

def remove (L : Links α) (e : α) : Links α where
  next := update L.next (L.prev e) (L.next e)
  prev := update L.prev (L.next e) (L.prev e)

/-- `e` is a list of its own. -/
def single (L : Links α) (e : α) : Links α where
  next := update L.next e e
  prev := update L.prev e e

end Fields

def Adj (L : Links α) (a b : α) : Prop := L.next a = b ∧ L.prev b = a

end Links

/-- The nodes `h` and `l`, in order and round again. -/
structure Circular (L : Links α) (h : α) (l : List α) : Prop where
  nodup : (h :: l).Nodup
  links : (h :: (l ++ [h])).IsChain L.Adj

namespace Circular
variable {L L' : Links α} {l l₁ l₂ : List α}

theorem rotate (c : Circular L h (l₁ ++ e :: l₂)) : Circular L e (l₂ ++ h :: l₁) := by
  constructor
  · have hp : (h :: (l₁ ++ e :: l₂)).Perm (e :: (l₂ ++ h :: l₁)) := by
      refine (List.Perm.cons h perm_middle).trans ?_
      refine (List.Perm.swap e h _).trans (List.Perm.cons e ?_)
      exact (perm_append_comm.cons h).trans perm_middle.symm
    exact hp.nodup c.nodup
  · have hsplit := c.links
    rw [append_assoc, cons_append, ← cons_append, isChain_split] at hsplit
    have : (e :: l₂ ++ [h]).IsChain L.Adj ∧ (h :: (l₁ ++ [e])).IsChain L.Adj :=
      ⟨hsplit.2, hsplit.1⟩
    rw [append_assoc, cons_append, ← cons_append, isChain_split]
    exact this

/-- New links that change nothing behind the node after `h` keep the list behind it. -/
theorem tail_links (hh : L.next h ∉ (l ++ [h]).tail) (hl : (l ++ [h]).IsChain L.Adj)
    (hn : ∀ a ∈ l, L'.next a = L.next a)
    (hp : ∀ a ∈ (l ++ [h]).tail, L'.prev a = L.prev a) : (l ++ [h]).IsChain L'.Adj := by
  refine List.IsChain.imp_of_mem_tail_imp ?_ hl
  intro a b ha hb hab
  have hah : a ≠ h := by
    rintro rfl
    exact hh (hab.1 ▸ hb)
  have hal : a ∈ l := by simpa [hah] using ha
  exact ⟨(hn a hal).trans hab.1, (hp b hb).trans hab.2⟩

/-- The first node of the rest is not met again before the head. -/
theorem head_notMem_tail (hd : (h :: l).Nodup) : (l ++ [h]).head (by simp) ∉ (l ++ [h]).tail := by
  have hnd : (l ++ [h]).Nodup := (perm_append_singleton h l).symm.nodup hd
  rw [← cons_head_tail (l := l ++ [h]) (by simp)] at hnd
  exact (nodup_cons.1 hnd).1

theorem mem_of_head {f : α → α} (hf : ∀ {h l}, Circular L h l → f h ∈ h :: l) (c : Circular L h l)
    (ha : a ∈ h :: l) : f a ∈ h :: l := by
  rcases mem_cons.1 ha with rfl | ha
  · exact hf c
  · obtain ⟨l₁, l₂, rfl⟩ := append_of_mem ha
    have := hf c.rotate
    simp only [mem_cons, mem_append] at this ⊢
    tauto

section
variable (c : Circular L h l)
include c

theorem congr (hn : ∀ a ∈ h :: l, L'.next a = L.next a)
    (hp : ∀ a ∈ h :: l, L'.prev a = L.prev a) : Circular L' h l := by
  refine ⟨c.nodup, List.IsChain.imp_of_mem_imp ?_ c.links⟩
  intro a b ha hb hab
  have hmem : ∀ x ∈ h :: (l ++ [h]), x ∈ h :: l := by
    intro x hx
    simpa [or_comm, or_assoc] using hx
  exact ⟨(hn a (hmem a ha)).trans hab.1, (hp b (hmem b hb)).trans hab.2⟩

theorem next_head : L.next h = (l ++ [h]).head (by simp) := by
  cases l with
  | nil | cons a l => exact (isChain_cons_cons.1 c.links).1.1

theorem prev_head : L.prev h = l.getLast?.getD h := by
  rcases eq_nil_or_concat l with rfl | ⟨init, e, hl⟩
  · exact (isChain_cons_cons.1 c.links).1.2
  · rw [concat_eq_append] at hl
    subst hl
    have hlast : Circular L e ([] ++ h :: init) := c.rotate
    simpa using (isChain_cons_cons.1 hlast.links).1.2

theorem next_mem (ha : a ∈ h :: l) : L.next a ∈ h :: l := by
  refine mem_of_head (fun c => ?_) c ha
  rw [c.next_head]
  exact (perm_append_singleton _ _).mem_iff.1 (head_mem _)

theorem prev_mem (ha : a ∈ h :: l) : L.prev a ∈ h :: l := by
  refine mem_of_head (fun {h l} c => ?_) c ha
  rw [c.prev_head]
  cases hl : l.getLast? with
  | none => simp
  | some y => exact mem_cons_of_mem _ (mem_of_getLast? hl)

end

theorem next_at (c : Circular L h (l₁ ++ e :: l₂)) : L.next e = (l₂ ++ [h]).head (by simp) := by
  rw [c.rotate.next_head]
  cases l₂ <;> rfl

theorem prev_at (c : Circular L h (l₁ ++ e :: l₂)) : L.prev e = (h :: l₁).getLast (by simp) := by
  rw [c.rotate.prev_head, getLast?_append, getLast?_eq_some_getLast (by simp)]
  rfl

section Fields
variable [DecidableEq α]

theorem insert_head (c : Circular L h l) (he : e ∉ h :: l) : Circular (L.insert e h) h (e :: l) := by
  have heh : e ≠ h := fun hx => he (by simp [hx])
  have hel : e ∉ l := fun hx => he (by simp [hx])
  have hnext := c.next_head
  have hmem : ∀ a ∈ l ++ [h], a ∈ h :: l := fun a ha => by simpa [or_comm] using ha
  have hnew : L.next h ≠ e := by
    rw [hnext]
    intro hx
    exact he (hx ▸ hmem _ (head_mem _))
  constructor
  · have hd := nodup_cons.1 c.nodup
    exact nodup_cons.2 ⟨by simpa [Ne.symm heh] using hd.1, nodup_cons.2 ⟨hel, hd.2⟩⟩
  · have hfirst : (L.insert e h).Adj h e :=
      ⟨by simp [Links.insert], by simp [Links.insert, update_of_ne hnew.symm]⟩
    have hsecond : (L.insert e h).Adj e (L.next h) :=
      ⟨by simp [Links.insert, update_of_ne heh], by simp [Links.insert]⟩
    have hfar := head_notMem_tail c.nodup
    rw [← hnext] at hfar
    have hrest : (l ++ [h]).IsChain (L.insert e h).Adj := by
      refine tail_links hfar (isChain_cons.1 c.links).2 (fun a ha => ?_) fun a ha => ?_
      · have hah : a ≠ h := fun hx => (nodup_cons.1 c.nodup).1 (hx ▸ ha)
        have hae : a ≠ e := fun hx => hel (hx ▸ ha)
        simp [Links.insert, update_of_ne hah, update_of_ne hae]
      · have hae : a ≠ e := fun hx => he (hx ▸ hmem a (mem_of_mem_tail ha))
        have hne : a ≠ L.next h := fun hx => hfar (hx ▸ ha)
        simp [Links.insert, update_of_ne hne, update_of_ne hae]
    refine isChain_cons_cons.2 ⟨hfirst, isChain_cons.2 ⟨fun b hb => ?_, hrest⟩⟩
    have hb' : b ∈ (l ++ [h]).head? := hb
    rw [head?_eq_some_head (by simp), ← hnext] at hb'
    cases hb'
    exact hsecond

theorem remove_head (c : Circular L h (e :: l)) : Circular (L.remove e) h l := by
  have hd := nodup_cons.1 c.nodup
  have hd' := nodup_cons.1 hd.2
  have hnd : (h :: l).Nodup := nodup_cons.2 ⟨fun hx => hd.1 (by simp [hx]), hd'.2⟩
  obtain ⟨⟨hhe, hprev⟩, hchain⟩ := isChain_cons_cons.1 c.links
  obtain ⟨hafter, hl⟩ := isChain_cons.1 hchain
  have hnext : L.next e = (l ++ [h]).head (by simp) :=
    (hafter _ (head?_eq_some_head (by simp))).1
  have hfar := head_notMem_tail hnd
  rw [← hnext] at hfar
  have hmem : ∀ a ∈ l ++ [h], a ∈ h :: l := fun a ha => by simpa [or_comm] using ha
  have hehl : e ∉ h :: l := by
    intro hx
    rcases mem_cons.1 hx with rfl | hx
    · exact hd.1 (by simp)
    · exact hd'.1 hx
  have hfirst : (L.remove e).Adj h (L.next e) :=
    ⟨by simp [remove, hprev], by simp [remove, hprev]⟩
  have hrest : (l ++ [h]).IsChain (L.remove e).Adj := by
    refine tail_links (fun hx => ?_) hl (fun a ha => ?_) fun a ha => ?_
    · rw [hhe] at hx
      exact hehl (hmem e (mem_of_mem_tail hx))
    · have hah : a ≠ h := fun hx => hd.1 (hx ▸ mem_cons_of_mem _ ha)
      simp [remove, hprev, update_of_ne hah]
    · have hne : a ≠ L.next e := fun hx => hfar (hx ▸ ha)
      simp [remove, update_of_ne hne]
  refine ⟨hnd, isChain_cons.2 ⟨fun b hb => ?_, hrest⟩⟩
  rw [head?_eq_some_head (by simp), ← hnext] at hb
  cases hb
  exact hfirst

theorem insert (c : Circular L h (l₁ ++ x :: l₂)) (he : e ∉ h :: (l₁ ++ x :: l₂)) :
    Circular (L.insert e x) h (l₁ ++ x :: e :: l₂) := by
  have hc : Circular L x (l₂ ++ h :: l₁) := c.rotate
  have hi : Circular (L.insert e x) x ((e :: l₂) ++ h :: l₁) := hc.insert_head (by
    intro hx
    apply he
    simp only [mem_cons, mem_append] at hx ⊢
    tauto)
  exact hi.rotate

theorem remove (c : Circular L h (l₁ ++ e :: l₂)) : Circular (L.remove e) h (l₁ ++ l₂) := by
  rcases eq_nil_or_concat l₁ with rfl | ⟨init, y, hl⟩
  · exact c.remove_head
  rw [concat_eq_append] at hl
  subst hl
  rw [append_assoc] at c ⊢
  have hc : Circular L y ((e :: l₂) ++ h :: init) := c.rotate
  have hr : Circular (L.remove e) y (l₂ ++ h :: init) := hc.remove_head
  exact hr.rotate

theorem insert_off (c : Circular L h l) (he : e ∉ h :: l) (hx : x ∉ h :: l)
    (hn : L.next x ∉ h :: l) : Circular (L.insert e x) h l := by
  apply c.congr
  · intro a ha
    have hae : a ≠ e := fun h' => he (h' ▸ ha)
    have hax : a ≠ x := fun h' => hx (h' ▸ ha)
    simp [Links.insert, update_of_ne hax, update_of_ne hae]
  · intro a ha
    have hae : a ≠ e := fun h' => he (h' ▸ ha)
    have han : a ≠ L.next x := fun h' => hn (h' ▸ ha)
    simp [Links.insert, update_of_ne han, update_of_ne hae]

theorem remove_off (c : Circular L h l) (hn : L.next e ∉ h :: l) (hp : L.prev e ∉ h :: l) :
    Circular (L.remove e) h l := by
  apply c.congr
  · intro a ha
    have hne : a ≠ L.prev e := fun h' => hp (h' ▸ ha)
    simp [Links.remove, update_of_ne hne]
  · intro a ha
    have hne : a ≠ L.next e := fun h' => hn (h' ▸ ha)
    simp [Links.remove, update_of_ne hne]

theorem insert_last (c : Circular L h l) (he : e ∉ h :: l) : Circular (L.insert e (L.prev h)) h (l ++ [e]) := by
  rw [c.prev_head]
  rcases eq_nil_or_concat l with rfl | ⟨init, y, hl⟩
  · exact c.insert_head he
  rw [concat_eq_append] at hl
  subst hl
  have hlast : (init ++ [y]).getLast?.getD h = y := by simp
  rw [hlast, append_assoc]
  exact c.insert he

theorem insert_between (c : Circular L h (l₁ ++ l₂)) (hx : x ∉ h :: (l₁ ++ l₂)) :
    Circular (L.insert x ((h :: l₁).getLast (by simp))) h (l₁ ++ x :: l₂) := by
  rcases eq_nil_or_concat l₁ with rfl | ⟨init, y, hl⟩
  · exact c.insert_head hx
  rw [concat_eq_append] at hl
  subst hl
  have hlast : (h :: (init ++ [y])).getLast (by simp) = y := by simp
  rw [append_assoc] at c hx ⊢
  rw [hlast]
  exact c.insert hx

theorem single_off (c : Circular L h l) (he : e ∉ h :: l) : Circular (L.single e) h l := by
  apply c.congr
  all_goals
    intro a ha
    have hae : a ≠ e := fun h' => he (h' ▸ ha)
    simp [single, update_of_ne hae]

theorem single (L : Links α) (e : α) : Circular (L.single e) e [] :=
  ⟨by simp, isChain_cons_cons.2 ⟨⟨by simp [Links.single], by simp [Links.single]⟩, isChain_singleton _⟩⟩

end Fields

end Circular

def Links.Apart (own : List α) (L L' : Links α) : Prop :=
  ∀ h l, Circular L h l → (∀ x ∈ h :: l, x ∉ own) → Circular L' h l

namespace Links.Apart
variable {L L' L'' : Links α} {own own' l : List α}

theorem refl (L : Links α) : L.Apart own L := fun _ _ c _ => c

theorem trans (h₁ : L.Apart own L') (h₂ : L'.Apart own L'') : L.Apart own L'' :=
  fun h l c hx => h₂ h l (h₁ h l c hx) hx

theorem mono (h : L.Apart own L') (hsub : own ⊆ own') : L.Apart own' L' :=
  fun _ _ c hx => h _ _ c fun x hm ho => hx x hm (hsub ho)

variable [DecidableEq α]

theorem remove (c : Circular L h l) (he : e ∈ h :: l) : L.Apart (h :: l) (L.remove e) := by
  intro h' l' c' hx
  exact c'.remove_off (fun hm => hx _ hm (c.next_mem he)) fun hm => hx _ hm (c.prev_mem he)

theorem insert (c : Circular L h l) (hx : x ∈ h :: l) : L.Apart (e :: h :: l) (L.insert e x) := by
  intro h' l' c' hout
  refine c'.insert_off (fun hm => hout _ hm (by simp)) (fun hm => hout _ hm ?_) fun hm => hout _ hm ?_
  · exact mem_cons_of_mem _ hx
  · exact mem_cons_of_mem _ (c.next_mem hx)

theorem single (L : Links α) (e : α) : L.Apart [e] (L.single e) := by
  intro h' l' c' hx
  exact c'.single_off fun hm => hx _ hm (by simp)

end Links.Apart

end GemDroid.Lib

import GemDroid.Lib.LinkPath

/-! Families of linked lists that share their link cells.

Every list of a family has a head cell and an end pointer: null for a plain list,
a pointer back to the head for a ring. `Lists sh read D on` says that the lists of
the heads in `D` are intact and that list `h` passes exactly the nodes `a` with
`on a = some h`. So a node is on at most one list, on it once, and whatever
happens to one list leaves the others. The rules below say what unlinking,
pushing and stray writes do to `on`. -/
namespace GemDroid.Lib.LinkPath
open Function (update_of_ne update)
open List

variable {C α H : Type}

structure Shape (C α H : Type) where
  cell : α → C
  head : H → C
  stop : H → Option α
  cell_inj : Function.Injective cell
  head_inj : Function.Injective head

structure Lists (sh : Shape C α H) (read : C → Option α) (D : H → Prop) (on : α → Option H) : Prop where
  path : ∀ h, D h → ∃ l, Path read sh.cell (sh.head h) l (sh.stop h) ∧ ∀ a, a ∈ l ↔ on a = some h
  apart : ∀ a h, (on a).isSome → sh.head h ≠ sh.cell a
  opened : ∀ a h, (on a).isSome → sh.stop h ≠ some a

namespace Lists
variable {sh : Shape C α H} {read : C → Option α} {D : H → Prop} {on : α → Option H} {a r : α}
  {h : H} {D' : H → Prop}

section
variable (L : Lists sh read D on)
include L

theorem apart_of_on (ha : on a = some h) (h' : H) : sh.head h' ≠ sh.cell a := L.apart a h' (by simp [ha])

theorem nodup {l : List α}
    (hp : Path read sh.cell (sh.head h) l (sh.stop h)) (hl : ∀ a, a ∈ l ↔ on a = some h) : l.Nodup :=
  path_nodup hp fun a ha => L.opened a h (by simp [(hl a).mp ha])

theorem split (hD : D h) (ha : on a = some h) : ∃ l₁ l₂, Path read sh.cell (sh.head h) (l₁ ++ a :: l₂) (sh.stop h) ∧
      ∀ b, b ∈ l₁ ++ a :: l₂ ↔ on b = some h := by
  obtain ⟨l, hp, hl⟩ := L.path h hD
  obtain ⟨l₁, l₂, rfl⟩ := append_of_mem ((hl a).mpr ha)
  exact ⟨l₁, l₂, hp, hl⟩

theorem link_isSome (hD : D h) (ha : on a = some h) (hstop : sh.stop h = some r) : (read (sh.cell a)).isSome := by
  obtain ⟨l₁, l₂, hp, -⟩ := L.split hD ha
  have htail := ((path_append _ _ _ _).mp hp).2.2
  cases l₂ with
  | nil =>
    have hend : read (sh.cell a) = sh.stop h := htail
    simp [hend, hstop]
  | cons b l => simp [htail.1]

theorem restrict {on' : α → Option H} (hD : ∀ h, D' h → D h)
    (hon : ∀ a h, D' h → (on' a = some h ↔ on a = some h)) (hsome : ∀ a, (on' a).isSome → (on a).isSome) :
    Lists sh read D' on' where
  path h hh := by
    obtain ⟨l, hp, hl⟩ := L.path h (hD h hh)
    exact ⟨l, hp, fun a => (hl a).trans (hon a h hh).symm⟩
  apart a h ha := L.apart a h (hsome a ha)
  opened a h ha := L.opened a h (hsome a ha)

theorem congr {read' : C → Option α} (hhead : ∀ h, D h → read' (sh.head h) = read (sh.head h))
    (hcell : ∀ a h, D h → on a = some h → read' (sh.cell a) = read (sh.cell a)) : Lists sh read' D on where
  path h hh := by
    obtain ⟨l, hp, hl⟩ := L.path h hh
    exact ⟨l, (path_congr (hhead h hh) fun a ha => hcell a h hh ((hl a).mp ha)).mpr hp, hl⟩
  apart := L.apart
  opened := L.opened

/-- A head cell that holds its end pointer is a new, empty list. -/
theorem insert_head (hD : ∀ h', D' h' → D h' ∨ h' = h)
    (hempty : read (sh.head h) = sh.stop h) (hon : ∀ a, on a ≠ some h) : Lists sh read D' on where
  path h' hh' := by
    by_cases he : h' = h
    · subst he
      exact ⟨[], hempty, fun a => by simp [hon a]⟩
    · exact L.path h' ((hD h' hh').resolve_right he)
  apart := L.apart
  opened := L.opened

end

variable [DecidableEq C]

theorem update_cell_off (L : Lists sh read D on) (ha : ∀ h, D h → on a ≠ some h)
    (hhead : ∀ h, D h → sh.head h ≠ sh.cell a) (v : Option α) : Lists sh (update read (sh.cell a) v) D on := by
  refine L.congr (fun h hh => ?_) fun b h hh hb => ?_
  · rw [update_of_ne (hhead h hh)]
  · rw [update_of_ne]
    intro he
    exact ha h hh (sh.cell_inj he ▸ hb)

variable [DecidableEq α]

section
variable (L : Lists sh read D on)
include L

/-- Writing the link of `a` into the cell that holds `a`. -/
theorem unlink_split {l₁ l₂ : List α} (hp : Path read sh.cell (sh.head h) (l₁ ++ a :: l₂) (sh.stop h))
    (hl : ∀ b, b ∈ l₁ ++ a :: l₂ ↔ on b = some h) :
    Lists sh (update read (lastCell sh.cell (sh.head h) l₁) (read (sh.cell a))) D (update on a none) := by
  have hnodup := L.nodup hp hl
  have hsub : ∀ b, (update on a none b).isSome → (on b).isSome := by
    intro b hb
    by_cases he : b = a
    · simp [he] at hb
    · rwa [update_of_ne he] at hb
  have ha : on a = some h := (hl a).mp (by simp)
  refine ⟨fun h' hh' => ?_, fun b h' hb => L.apart b h' (hsub b hb), fun b h' hb => L.opened b h' (hsub b hb)⟩
  by_cases he : h' = h
  · subst he
    refine ⟨l₁ ++ l₂, path_unlink hp hnodup sh.cell_inj fun b hb => L.apart_of_on ((hl b).mp hb) h', fun b => ?_⟩
    have hmem := hl b
    rw [nodup_append, nodup_cons] at hnodup
    by_cases hb : b = a
    · subst hb
      have h₁ : b ∉ l₁ := fun hb => hnodup.2.2 b hb b (mem_cons_self ..) rfl
      simp [h₁, hnodup.2.1.1]
    · rw [update_of_ne hb, ← hmem]
      simp [hb]
  -- The written cell belongs to the list of `h`, so the other lists do not read it.
  obtain ⟨l, hp', hl'⟩ := L.path h' hh'
  refine ⟨l, (path_update ?_ fun b hb => ?_).mpr hp', fun b => ?_⟩
  · rcases lastCell_mem sh.cell (sh.head h) l₁ with hc | ⟨x, hx, hc⟩ <;> rw [hc]
    · exact fun hhead => he (sh.head_inj hhead).symm
    · exact (L.apart_of_on ((hl x).mp (mem_append_left _ hx)) h').symm
  · rcases lastCell_mem sh.cell (sh.head h) l₁ with hc | ⟨x, hx, hc⟩ <;> rw [hc]
    · exact L.apart_of_on ((hl' b).mp hb) h
    · intro hcell
      have hx' := (hl x).mp (mem_append_left _ hx)
      rw [sh.cell_inj hcell, (hl' b).mp hb] at hx'
      exact he (Option.some.inj hx')
  · rw [hl' b]
    by_cases hb : b = a
    · simp [hb, ha, Ne.symm he]
    · rw [update_of_ne hb]

theorem push (hD : D h) (ha : ∀ h, on a ≠ some h)
    (hapart : ∀ h, sh.head h ≠ sh.cell a) (hopen : ∀ h, sh.stop h ≠ some a) :
    Lists sh (update (update read (sh.cell a) (read (sh.head h))) (sh.head h) (some a)) D (update on a (some h)) := by
  have hsome : ∀ b, (update on a (some h) b).isSome → b = a ∨ (on b).isSome := by
    intro b hb
    by_cases he : b = a
    · exact .inl he
    · rw [update_of_ne he] at hb
      exact .inr hb
  refine ⟨fun h' hh' => ?_, fun b h' hb => ?_, fun b h' hb => ?_⟩
  · obtain ⟨l, hp, hl⟩ := L.path h' hh'
    have hal : a ∉ l := fun hmem => ha h' ((hl a).mp hmem)
    by_cases he : h' = h
    · subst he
      refine ⟨a :: l, path_push hp sh.cell_inj hal fun b hb => ?_, fun b => ?_⟩
      · rcases mem_cons.mp hb with rfl | hb
        · exact hapart h'
        · exact L.apart_of_on ((hl b).mp hb) h'
      · by_cases hb : b = a
        · simp [hb]
        · simp [hb, hl b]
    · refine ⟨l, (path_congr ?_ fun b hb => ?_).mpr hp, fun b => ?_⟩
      · rw [update_of_ne (fun hc => he (sh.head_inj hc)), update_of_ne (hapart h')]
      · rw [update_of_ne (L.apart_of_on ((hl b).mp hb) h).symm, update_of_ne]
        exact fun hc => hal (sh.cell_inj hc ▸ hb)
      · by_cases hb : b = a
        · simp [hb, hal, Ne.symm he]
        · rw [update_of_ne hb, hl b]
  · rcases hsome b hb with rfl | hb
    · exact hapart h'
    · exact L.apart b h' hb
  · rcases hsome b hb with rfl | hb
    · exact hopen h'
    · exact L.opened b h' hb

/-- The walk from the head of a list finds the first node `hit` accepts, and the
write that follows takes that node off. -/
theorem find_unlink (hD : D h) (hit : α → Bool) (fuel : Nat) (hhit : ∃ a, hit a = true ∧ on a = some h)
    (hfuel : ∀ l : List α, l.Nodup → (∀ a ∈ l, on a = some h) → l.length < fuel) :
    ∃ a c, hit a = true ∧ on a = some h ∧ findCell read sh.cell hit fuel (sh.head h) = .ok c ∧
      read c = some a ∧ Lists sh (update read c (read (sh.cell a))) D (update on a none) := by
  obtain ⟨l, hp, hl⟩ := L.path h hD
  obtain ⟨x, hx, hxl⟩ := hhit
  -- The first accepted node splits the list.
  obtain ⟨l₁, a, l₂, rfl, ha, hmiss⟩ : ∃ l₁ a l₂, l = l₁ ++ a :: l₂ ∧ hit a = true ∧ ∀ b ∈ l₁, hit b = false := by
    have hmem := (hl x).mpr hxl
    clear hp hl
    induction l with
    | nil => exact absurd hmem not_mem_nil
    | cons y l ih =>
      cases hy : hit y
      · have hxl : x ∈ l := (mem_cons.mp hmem).resolve_left fun he => by simp [← he, hx] at hy
        obtain ⟨l₁, a, l₂, rfl, ha, hmiss⟩ := ih hxl
        exact ⟨y :: l₁, a, l₂, rfl, ha, fun b hb => (mem_cons.mp hb).elim (fun he => he ▸ hy) (hmiss b)⟩
      · exact ⟨[], y, l, rfl, hy, fun b hb => absurd hb not_mem_nil⟩
  have hlen := hfuel _ (L.nodup hp hl) fun b hb => (hl b).mp hb
  refine ⟨a, _, ha, (hl a).mp (by simp), findCell_path hp hmiss ha ?_, ?_, L.unlink_split hp hl⟩
  · rw [length_append] at hlen
    omega
  · exact ((path_append _ _ _ _).mp hp).2.1

/-- The walk around a ring, from the node `a` on past the head and back to the cell
that holds `a`. -/
theorem ring_unlink (hD : D h) (ha : on a = some h)
    (hstop : sh.stop h = some r) (hring : sh.cell r = sh.head h) (fuel : Nat)
    (hfuel : ∀ l : List α, l.Nodup → (∀ a ∈ l, on a = some h) → l.length < fuel) :
    ∃ c, findCell read sh.cell (· == a) fuel (sh.cell a) = .ok c ∧ c ≠ sh.cell a ∧
      Lists sh (update read c (read (sh.cell a))) D (update on a none) := by
  obtain ⟨l₁, l₂, hp, hl⟩ := L.split hD ha
  have hnodup := L.nodup hp hl
  have hlen := hfuel _ hnodup fun b hb => (hl b).mp hb
  obtain ⟨hfront, hback⟩ := (path_append _ _ _ _).mp hp
  have hcell : lastCell sh.cell (sh.cell a) (l₂ ++ r :: l₁) = lastCell sh.cell (sh.head h) l₁ := by
    simp [lastCell, hring]
  have hround : Path read sh.cell (sh.cell a) ((l₂ ++ r :: l₁) ++ a :: []) (read (sh.cell a)) := by
    have hend := hback.2
    rw [hstop, ← append_nil l₂, path_append] at hend
    refine (path_append _ _ _ _).mpr ⟨(path_append _ _ _ _).mpr ⟨hend.1, hend.2, ?_⟩, ?_, rfl⟩
    · rw [hcell, hring]
      exact hfront
    · rw [hcell]
      exact hback.1
  have hmiss : ∀ b ∈ l₂ ++ r :: l₁, (b == a) = false := by
    rw [nodup_append, nodup_cons] at hnodup
    intro b hb
    rw [beq_eq_false_iff_ne]
    rintro rfl
    rcases mem_append.mp hb with hb | hb
    · exact hnodup.2.1.1 hb
    · rcases mem_cons.mp hb with rfl | hb
      · exact L.opened b h (by simp [ha]) hstop
      · exact hnodup.2.2 b hb b (mem_cons_self ..) rfl
  refine ⟨lastCell sh.cell (sh.head h) l₁, ?_, ?_, L.unlink_split hp hl⟩
  · rw [findCell_path hround hmiss (beq_self_eq_true a) ?_, hcell]
    simp only [length_append, length_cons] at hlen ⊢
    omega
  · rcases lastCell_mem sh.cell (sh.head h) l₁ with hc | ⟨x, hx, hc⟩ <;> rw [hc]
    · exact L.apart_of_on ha h
    · intro he
      rw [nodup_append] at hnodup
      exact hnodup.2.2 x hx a (mem_cons_self ..) (sh.cell_inj he)

end

end Lists

end GemDroid.Lib.LinkPath

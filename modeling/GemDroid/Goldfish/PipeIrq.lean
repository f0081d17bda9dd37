import GemDroid.Goldfish.Pipe
import GemDroid.Lib.Reach
import GemDroid.Lib.Fallible
import Mathlib.Data.List.Perm.Subperm

/-! The lists of pipes and the interrupt line.

Whatever guest and host do, both lists are well formed, and a signalled pipe is an open one. The
line is high while a pipe is signalled, as long as the guest does not close the only signalled
pipe: that takes the pipe off the list and leaves the line as it is. -/
namespace GemDroid.Goldfish
open Lib Lib.LinkPath Function List Option PipeDevice Cell

variable {aps : AccessParams}

variable {P : Type} {d d' : PipeDevice P} {ps sig : List Nat} {p fuel : Nat}

variable {out : Outcome P}

theorem link_injective : Function.Injective link := fun _ _ h => link.inj h

theorem head_ne_link (l : List Nat) : ∀ b ∈ l, Cell.head ≠ Cell.link b := fun _ _ => nofun

abbrev Linked (list : Cell → Option Nat) (l : List Nat) : Prop := Path list Cell.link .head l none

variable {list : Cell → Option Nat} {l : List Nat}

theorem Linked.nodup (h : Linked list l) : l.Nodup :=
  path_nodup h fun _ _ => nofun

theorem findp_cases (hit : Nat → Bool) (h : Linked list l) (hfuel : l.length < fuel) :
    (findp fuel list hit = .ok none ∧ ∀ b ∈ l, hit b = false) ∨
    (∃ l₁ a l₂, l = l₁ ++ a :: l₂ ∧ hit a = true ∧ list (lastCell link .head l₁) = some a ∧
      findp fuel list hit = .ok (some (lastCell link .head l₁))) := by
  by_cases hall : ∀ b ∈ l, hit b = false
  · refine Or.inl ⟨?_, hall⟩
    rw [findp, findCell_miss h hall hfuel]
  obtain ⟨a, ha, l₁, l₂, rfl, hmiss⟩ : ∃ a, hit a = true ∧ ∃ l₁ l₂, l = l₁ ++ a :: l₂ ∧ ∀ b ∈ l₁, hit b = false := by
    have hsome : (l.find? hit).isSome = true := by
      rw [find?_isSome]
      simpa using hall
    obtain ⟨a, ha⟩ := isSome_iff_exists.1 hsome
    obtain ⟨hhit, l₁, l₂, heq, hmiss⟩ := find?_eq_some_iff_append.1 ha
    exact ⟨a, hhit, l₁, l₂, heq, fun b hb => by simpa using hmiss b hb⟩
  have hwalk : findCell list link hit fuel .head = .ok (lastCell link .head l₁) :=
    findCell_path h hmiss ha (by rw [length_append] at hfuel; omega)
  refine Or.inr ⟨l₁, a, l₂, rfl, ha, ((path_append Cell.head l₁ (a :: l₂) none).1 h).2.1, ?_⟩
  rw [findp, hwalk]

variable {l₁ l₂ : List Nat}

theorem Linked.unlink (h : Linked list (l₁ ++ p :: l₂)) :
    Linked (unlink list (lastCell link .head l₁) p) (l₁ ++ l₂) := by
  have hnodup := h.nodup
  refine (path_update (fun hc => Cell.noConfusion hc) ?_).2 (path_unlink h hnodup link_injective (head_ne_link _))
  intro a ha heq
  obtain rfl := link.inj heq
  exact (nodup_middle.1 hnodup).notMem ha

theorem Linked.prepend (h : Linked list l) (hp : p ∉ l) : Linked (prepend list p) (p :: l) :=
  path_push h link_injective hp (head_ne_link _)

/-! ### Well-formed lists -/

structure Wf (d : PipeDevice P) (ps sig : List Nat) : Prop where
  pipes : Linked d.pipes ps
  signaled : Linked d.signaledPipes sig
  sub : sig ⊆ ps
  isOpen : ∀ p, (d.pipe p).isSome = true ↔ p ∈ ps

namespace Wf

theorem init : Wf (init : PipeDevice P) [] [] where
  pipes := rfl
  signaled := rfl
  sub := List.Subset.refl _
  isOpen := by simp [PipeDevice.init]

section
variable (h : Wf d ps sig)
include h

theorem congr (hpipes : d'.pipes = d.pipes) (hsignaled : d'.signaledPipes = d.signaledPipes)
    (hopen : ∀ p, (d'.pipe p).isSome = (d.pipe p).isSome) : Wf d' ps sig where
  pipes := hpipes ▸ h.pipes
  signaled := hsignaled ▸ h.signaled
  sub := h.sub
  isOpen := fun p => by rw [hopen, h.isOpen]

theorem setPipe (hp : p ∈ ps) (pipe : Pipe P) : Wf (d.setPipe p pipe) ps sig := by
  refine h.congr rfl rfl fun q => ?_
  by_cases hq : q = p
  · subst hq
    simp [setPipe, (h.isOpen q).2 hp]
  · simp [PipeDevice.setPipe, hq]

theorem sig_length_le : sig.length ≤ ps.length :=
  (h.signaled.nodup.subperm h.sub).length_le

theorem exists_pipe (hp : p ∈ ps) : ∃ pipe, d.pipe p = some pipe :=
  isSome_iff_exists.1 ((h.isOpen p).2 hp)

end

end Wf

/-- The signalled pipes after a wake. -/
def signal (p : Nat) (sig : List Nat) : List Nat := if p ∈ sig then sig else p :: sig

theorem Linked.signal (h : Linked list sig) :
    Linked (if p ∈ sig then list else Goldfish.prepend list p) (Goldfish.signal p sig) := by
  rw [Goldfish.signal]
  split
  · exact h
  next hp => exact h.prepend hp

variable {pipe : Pipe P}

/-- `goldfish_pipe_wake`: the pipe is signalled, and nothing else changes but its wanted flags and
the line. -/
theorem wake_eq (h : Wf d ps sig) (hfuel : ps.length < fuel) (hpipe : d.pipe p = some pipe) (flags : BitVec 32) :
    d.wake fuel p flags = .ok { d with
      signaledPipes := if p ∈ sig then d.signaledPipes else prepend d.signaledPipes p
      irq := true
      pipe := update d.pipe p (some { pipe with wanted := pipe.wanted ||| flags.setWidth 8 }) } := by
  have hle := h.sig_length_le
  obtain ⟨hfind, hnone⟩ | ⟨l₁, a, l₂, heq, hit, -, hfind⟩ := findp_cases (· == p) h.signaled (show sig.length < fuel by omega)
  · have hp : p ∉ sig := fun hmem => by simpa using hnone p hmem
    simp only [wake, hpipe, hfind, ok_bind, if_neg hp]
    rfl
  · obtain rfl : a = p := by simpa using hit
    have hp : a ∈ sig := by simp [heq]
    simp only [wake, hpipe, hfind, ok_bind, if_pos hp]
    rfl

theorem mem_signal (p : Nat) (sig : List Nat) : p ∈ signal p sig := by
  rw [signal]
  split
  · assumption
  · exact mem_cons_self

theorem signal_subset (hp : p ∈ ps) (h : sig ⊆ ps) : signal p sig ⊆ ps := by
  rw [signal]
  split
  · exact h
  · exact cons_subset.2 ⟨hp, h⟩

/-! ### The line -/

/-- The lists are well formed, and the line is high exactly while a pipe is signalled. -/
def Lined (d : PipeDevice P) (ps : List Nat) : Prop := ∃ sig, Wf d ps sig ∧ (d.irq = true ↔ sig ≠ [])

namespace Lined

section
variable (h : Lined d ps)
include h

theorem congr (hpipes : d'.pipes = d.pipes) (hsignaled : d'.signaledPipes = d.signaledPipes)
    (hopen : d'.pipe = d.pipe) (hirq : d'.irq = d.irq) : Lined d' ps := by
  obtain ⟨sig, hwf, hline⟩ := h
  exact ⟨sig, hwf.congr hpipes hsignaled (fun p => by rw [hopen]), by rw [hirq]; exact hline⟩

theorem setPipe (hp : p ∈ ps) (pipe : Pipe P) : Lined (d.setPipe p pipe) ps := by
  obtain ⟨sig, hwf, hline⟩ := h
  exact ⟨sig, hwf.setPipe hp pipe, hline⟩

theorem mem_of_pipe (hpipe : d.pipe p = some pipe) : p ∈ ps := by
  obtain ⟨sig, hwf, -⟩ := h
  exact (hwf.isOpen p).1 (by rw [hpipe]; rfl)

section
variable (hfuel : ps.length < fuel)
include hfuel

theorem wake {flags : BitVec 32} (hok : d.wake fuel p flags = .ok d') : Lined d' ps := by
  cases hpipe : d.pipe p with
  | none =>
    simp only [PipeDevice.wake, hpipe] at hok
    cases hok
  | some pipe =>
    have hp := h.mem_of_pipe hpipe
    obtain ⟨sig, hwf, -⟩ := h
    rw [wake_eq hwf hfuel hpipe flags] at hok
    cases hok
    have hset := hwf.setPipe hp { pipe with wanted := pipe.wanted ||| flags.setWidth 8 }
    refine ⟨signal p sig, ⟨hwf.pipes, hwf.signaled.signal, signal_subset hp hwf.sub, hset.isOpen⟩, ?_⟩
    exact ⟨fun _ => ne_nil_of_mem (mem_signal p sig), fun _ => rfl⟩

theorem close (hok : d.close fuel p = .ok d') : Lined d' ps := by
  simp only [PipeDevice.close] at hok
  split at hok
  · cases hok
  next pipe hpipe =>
    split at hok
    · exact (h.setPipe (h.mem_of_pipe hpipe) _).wake hfuel hok
    · cases hok
      exact h

theorem hostCall {call : HostCall} (hok : d.hostCall fuel call = .ok d') : Lined d' ps := by
  cases call with
  | wake p flags => exact h.wake hfuel hok
  | close p => exact h.close hfuel hok

theorem hostCalls {calls : List HostCall} (hok : hostCalls fuel d calls = .ok d') : Lined d' ps := by
  induction calls generalizing d with
  | nil =>
    cases hok
    exact h
  | cons call calls ih =>
    rw [hostCalls] at hok
    obtain ⟨d₁, hcall, hok⟩ := exists_ok_of_bind hok
    exact ih (h.hostCall hfuel hcall) hok

end

end

theorem callback (h : Lined d ps) (hfuel : ps.length < fuel) (hok : d.callback fuel p out = .ok d') : Lined d' ps := by
  rw [PipeDevice.callback] at hok
  obtain ⟨d₁, hcalls, hok⟩ := exists_ok_of_bind hok
  have h₁ := h.hostCalls hfuel hcalls
  split at hok
  · cases hok
  next pipe hpipe =>
    cases hok
    exact h₁.setPipe (h₁.mem_of_pipe hpipe) _

theorem openPipe (h : Lined d ps) (hok : d.openPipe out = .ok d') :
    ∃ ps', ps'.length ≤ ps.length + 1 ∧ Lined d' ps' := by
  rw [PipeDevice.openPipe] at hok
  split at hok
  · cases hok
  next hfresh =>
    cases hok
    obtain ⟨sig, hwf, hline⟩ := h
    have hnew : out.fresh ∉ ps := fun hmem => hfresh ((hwf.isOpen _).2 hmem)
    refine ⟨out.fresh :: ps, Nat.le_refl _, sig, ⟨hwf.pipes.prepend hnew, ?_, ?_, ?_⟩, hline⟩
    · refine (path_update (fun hc => Cell.noConfusion hc) ?_).2 hwf.signaled
      intro a ha heq
      exact hnew (hwf.sub (link.inj heq ▸ ha))
    · exact fun a ha => mem_cons_of_mem _ (hwf.sub ha)
    · intro q
      by_cases hq : q = out.fresh
      · simp [PipeDevice.setPipe, hq]
      · simp [PipeDevice.setPipe, hq, hwf.isOpen]

theorem closeFromGuest (hwf : Wf d (l₁ ++ p :: l₂) sig) (hline : d.irq = true ↔ sig ≠ [])
    (hlast : sig ≠ [p]) (hfuel : (l₁ ++ p :: l₂).length < fuel)
    (hok : d.closeFromGuest fuel (lastCell link .head l₁) p out = .ok d') : Lined d' (l₁ ++ l₂) := by
  have hle := hwf.sig_length_le
  have hnodup := hwf.pipes.nodup
  have hp : p ∉ l₁ ++ l₂ := (nodup_middle.1 hnodup).notMem
  have hmem : ∀ q, q ≠ p → (q ∈ l₁ ++ l₂ ↔ q ∈ l₁ ++ p :: l₂) := by
    intro q hq
    simp [hq]
  have hopen : ∀ q, (update d.pipe p none q).isSome = true ↔ q ∈ l₁ ++ l₂ := by
    intro q
    by_cases hq : q = p
    · subst hq
      simp [hp]
    · rw [update_of_ne hq, hmem q hq, hwf.isOpen]
  have hshort : (l₁ ++ l₂).length < fuel := by
    simp only [length_append, length_cons] at hfuel ⊢
    omega
  rw [PipeDevice.closeFromGuest, PipeDevice.removeWaked] at hok
  obtain ⟨hfind, hnone⟩ | ⟨k₁, a, k₂, rfl, hit, -, hfind⟩ :=
    findp_cases (· == p) hwf.signaled (show sig.length < fuel by omega)
  · have hsig : p ∉ sig := fun hs => by simpa using hnone p hs
    simp only [hfind, ok_bind] at hok
    refine hostCalls (d := { d with
      pipes := Goldfish.unlink d.pipes (lastCell link .head l₁) p, pipe := update d.pipe p none })
      ⟨sig, ⟨hwf.pipes.unlink, hwf.signaled, ?_, hopen⟩, hline⟩ hshort hok
    exact fun q hq => (hmem q (fun heq => hsig (heq ▸ hq))).2 (hwf.sub hq)
  obtain rfl : a = p := by simpa using hit
  have hsig : a ∉ k₁ ++ k₂ := (nodup_middle.1 hwf.signaled.nodup).notMem
  simp only [hfind, ok_bind] at hok
  refine hostCalls (d := { d with
    pipes := Goldfish.unlink d.pipes (lastCell link .head l₁) a
    signaledPipes := Goldfish.unlink d.signaledPipes (lastCell link .head k₁) a
    pipe := update d.pipe a none })
    ⟨k₁ ++ k₂, ⟨hwf.pipes.unlink, hwf.signaled.unlink, ?_, hopen⟩, ?_⟩ hshort hok
  · intro q hq
    refine (hmem q (fun heq => hsig (heq ▸ hq))).2 (hwf.sub ?_)
    rw [mem_append, mem_cons]
    exact (mem_append.1 hq).imp_right Or.inr
  · -- other pipes are signalled still, and the line is high
    have hrest : k₁ ++ k₂ ≠ [] := by
      intro hnil
      obtain ⟨rfl, rfl⟩ := append_eq_nil_iff.1 hnil
      exact hlast rfl
    exact ⟨fun _ => hrest, fun _ => hline.2 (by simp)⟩

theorem wakeOn (h : Lined d ps) (hp : p ∈ ps) (hfuel : ps.length < fuel) {flag : BitVec 8}
    (hok : d.wakeOn fuel p pipe flag out = .ok d') : Lined d' ps := by
  rw [PipeDevice.wakeOn] at hok
  split at hok
  · obtain ⟨d₁, hcall, hok⟩ := exists_ok_of_bind hok
    cases hok
    exact ((h.setPipe hp _).callback hfuel hcall).congr rfl rfl rfl rfl
  · cases hok
    exact h.congr rfl rfl rfl rfl

/-- `pipeDevice_doCommand`, if the guest does not close the only signalled pipe. -/
theorem doCommand (h : Lined d ps) (hfuel : ps.length < fuel) {command : Nat}
    (hlast : command = pipeCmdClose → ∀ p pipe, d.pipe p = some pipe → pipe.channel = d.channel →
      d.signaledPipes .head = some p → d.signaledPipes (.link p) ≠ none)
    (hok : d.doCommand fuel command out = .ok d') : ∃ ps', Lined d' ps' := by
  obtain ⟨sig, hwf, hline⟩ := h
  have h : Lined d ps := ⟨sig, hwf, hline⟩
  rw [PipeDevice.doCommand] at hok
  obtain ⟨hfind, -⟩ | ⟨l₁, p, l₂, rfl, hit, hcell, hfind⟩ :=
    findp_cases (fun p => (d.pipe p).any fun pipe => pipe.channel == d.channel) hwf.pipes hfuel
  · rw [hfind, ok_bind] at hok
    dsimp only at hok
    split at hok
    · obtain ⟨ps', -, h'⟩ := h.openPipe hok
      exact ⟨ps', h'⟩
    · cases hok
      exact ⟨ps, h.congr rfl rfl rfl rfl⟩
  have hp : p ∈ l₁ ++ p :: l₂ := mem_append_right _ mem_cons_self
  obtain ⟨pipe, hpipe⟩ := hwf.exists_pipe hp
  have hchannel : pipe.channel = d.channel := by simpa [hpipe] using hit
  rw [hfind, ok_bind] at hok
  simp only [hcell, hpipe] at hok
  split at hok
  · cases hok
    exact ⟨_, h.congr rfl rfl rfl rfl⟩
  split at hok
  · cases hok
    exact ⟨_, h.congr rfl rfl rfl rfl⟩
  split at hok
  next hclose =>
    refine ⟨_, closeFromGuest hwf hline ?_ hfuel hok⟩
    intro hsig
    have hpath := hwf.signaled
    rw [hsig] at hpath
    exact hlast hclose p pipe hpipe hchannel hpath.1 hpath.2
  · split at hok
    · obtain ⟨d₁, hcall, hok⟩ := exists_ok_of_bind hok
      cases hok
      exact ⟨_, (h.callback hfuel hcall).congr rfl rfl rfl rfl⟩
    · split at hok
      · exact ⟨_, h.wakeOn hp hfuel hok⟩
      · split at hok
        · exact ⟨_, h.wakeOn hp hfuel hok⟩
        · cases hok
          exact ⟨_, h⟩

end Lined

/-! ### Actions -/

def ClosesOnlySignaled (d : PipeDevice P) : Action P → Prop
  | .write offset value _ _ =>
    offset = pipeRegCommand ∧ value.toNat = pipeCmdClose ∧ ∃ p pipe, d.pipe p = some pipe ∧
      pipe.channel = d.channel ∧ d.signaledPipes .head = some p ∧ d.signaledPipes (.link p) = none
  | _ => False

namespace Lined

section
variable (h : Lined d ps)
include h

theorem setRegister (offset : Nat) (value : BitVec 32) : Lined (d.setRegister offset value) ps := by
  have hkeep : (d.setRegister offset value).pipes = d.pipes ∧
      (d.setRegister offset value).signaledPipes = d.signaledPipes ∧
      (d.setRegister offset value).pipe = d.pipe ∧ (d.setRegister offset value).irq = d.irq := by
    rw [PipeDevice.setRegister]
    split_ifs
    all_goals exact ⟨rfl, rfl, rfl, rfl⟩
  exact h.congr hkeep.1 hkeep.2.1 hkeep.2.2.1 hkeep.2.2.2

theorem accessParams (hfuel : ps.length < fuel)
    (hok : d.accessParams fuel aps out = .ok d') : ∃ ps', Lined d' ps' := by
  have h₁ : Lined { d with channel := aps.channel, size := aps.size, address := aps.address } ps :=
    h.congr rfl rfl rfl rfl
  rw [PipeDevice.accessParams] at hok
  split at hok
  · cases hok
    exact ⟨ps, h⟩
  dsimp only at hok
  split at hok
  · cases hok
    exact ⟨ps, h₁⟩
  next hcmd =>
    refine h₁.doCommand hfuel ?_ hok
    intro hclose
    rw [hclose] at hcmd
    exact absurd (by decide) hcmd

theorem write (hfuel : ps.length < fuel) {offset : Nat} {value : BitVec 32}
    (hlast : ¬ ClosesOnlySignaled d (.write offset value aps out))
    (hok : d.write fuel offset value aps out = .ok d') : ∃ ps', Lined d' ps' := by
  rw [PipeDevice.write] at hok
  split at hok
  next hcommand =>
    refine h.doCommand hfuel ?_ hok
    intro hclose p pipe hpipe hchannel hhead hnone
    exact hlast ⟨hcommand, hclose, p, pipe, hpipe, hchannel, hhead, hnone⟩
  · split at hok
    · exact h.accessParams hfuel hok
    · cases hok
      exact ⟨ps, h.setRegister offset value⟩

/-- The guest takes the first signalled pipe; the line goes down with the last. -/
theorem read (offset : Nat) : Lined (d.read offset).1 ps := by
  rw [PipeDevice.read]
  split_ifs with _ hchannel
  · exact h
  · split
    · exact h
    next p hhead =>
      obtain ⟨sig, hwf, hline⟩ := h
      cases sig with
      | nil =>
        have hnone : d.signaledPipes .head = none := hwf.signaled
        rw [hnone] at hhead
        cases hhead
      | cons q sig =>
        obtain rfl : q = p := some.inj (hwf.signaled.1.symm.trans hhead)
        obtain ⟨pipe, hpipe⟩ := hwf.exists_pipe (hwf.sub mem_cons_self)
        simp only [hpipe]
        have hrest : Linked (Goldfish.unlink d.signaledPipes .head q) sig :=
          (show Linked d.signaledPipes ([] ++ q :: sig) from hwf.signaled).unlink
        refine ⟨sig, ⟨hwf.pipes, hrest, fun a ha => hwf.sub (mem_cons_of_mem _ ha), ?_⟩, ?_⟩
        · exact (hwf.setPipe (hwf.sub mem_cons_self) _).isOpen
        · cases sig with
          | nil =>
            have hnone : Goldfish.unlink d.signaledPipes .head q .head = none := hrest
            simp [hnone]
          | cons r sig =>
            have hsome : Goldfish.unlink d.signaledPipes .head q .head = some r := hrest.1
            simp [hsome, hline]
  · split
    · exact h
    · exact h
  all_goals exact h

theorem act (hfuel : ps.length < fuel) {a : Action P} (hlast : ¬ ClosesOnlySignaled d a)
    (hok : d.act fuel a = .ok d') : ∃ ps', Lined d' ps' := by
  cases a with
  | read offset =>
    cases hok
    exact ⟨ps, h.read offset⟩
  | write offset value aps out => exact h.write hfuel hlast hok
  | host call => exact ⟨ps, h.hostCall hfuel hok⟩

end

end Lined

/-- In every state that guest and host reach, if the guest never closes the only signalled pipe: the
signalled pipes are a list without repetition of open pipes, and the line is high exactly if there is
one. -/
theorem irq_iff_signaled (h : Reach (· = init) (fun d a d' => ¬ ClosesOnlySignaled d a ∧ Acts d a d') d) :
    ∃ ps sig, Linked d.pipes ps ∧ Linked d.signaledPipes sig ∧ sig.Nodup ∧ sig ⊆ ps ∧
      (d.irq = true ↔ d.signaledPipes .head ≠ none) := by
  have hlined : ∃ ps, Lined d ps := by
    refine h.invariant (I := fun d => ∃ ps, Lined d ps) ?_ ?_
    · intro d hinit
      subst hinit
      exact ⟨[], [], Wf.init, by simp [init]⟩
    · intro d a d' hlined hstep
      obtain ⟨ps, hps⟩ := hlined
      obtain ⟨hlast, n, hact⟩ := hstep
      exact hps.act (show ps.length < n + ps.length + 1 by omega) hlast (hact _ (by omega))
  obtain ⟨ps, sig, hwf, hline⟩ := hlined
  refine ⟨ps, sig, hwf.pipes, hwf.signaled, hwf.signaled.nodup, hwf.sub, hline.trans ?_⟩
  cases sig with
  | nil =>
    have hnone : d.signaledPipes .head = none := hwf.signaled
    simp [hnone]
  | cons p sig => simp [hwf.signaled.1]

def quiet : Outcome Unit := ⟨0, (), 0, (), []⟩

/-- A command of the guest in the runs below. -/
def command (cmd : BitVec 32) : Action Unit := .write pipeRegCommand cmd ⟨0, 0, 0, 0⟩ quiet

def oneOpen : PipeDevice Unit := { (PipeDevice.init : PipeDevice Unit) with
  pipes := prepend (fun _ => none) 0
  signaledPipes := update (fun _ => none) (.link 0) none
  pipe := update (fun _ => none) 0 (some ⟨0, 0, 0, ()⟩) }

def oneWoken : PipeDevice Unit := { oneOpen with
  signaledPipes := prepend oneOpen.signaledPipes 0
  irq := true
  pipe := update oneOpen.pipe 0 (some ⟨0, 2, 0, ()⟩) }

theorem acts_of_succ {d d' : PipeDevice Unit} {a : Action Unit} (h : ∀ k, d.act (k + 1) a = .ok d') : Acts d a d' := by
  refine ⟨1, fun fuel hfuel => ?_⟩
  obtain ⟨k, rfl⟩ := Nat.exists_eq_add_of_le' hfuel
  exact h k

theorem acts_open : Acts init (command 1) oneOpen := acts_of_succ fun _ => rfl

theorem acts_wake : Acts oneOpen (.host (.wake 0 2)) oneWoken := acts_of_succ fun _ => rfl

theorem oneWoken_irq : ∃ ps sig, Linked oneWoken.pipes ps ∧ Linked oneWoken.signaledPipes sig ∧ sig.Nodup ∧
    sig ⊆ ps ∧ (oneWoken.irq = true ↔ oneWoken.signaledPipes .head ≠ none) := by
  refine irq_iff_signaled (.step (a := .host (.wake 0 2)) (.step (a := command 1) (.start rfl) ⟨?_, acts_open⟩)
    ⟨id, acts_wake⟩)
  intro hcloses
  exact absurd hcloses.2.1 (by decide)

def oneClosed : PipeDevice Unit := { oneWoken with
  pipes := unlink oneWoken.pipes .head 0
  signaledPipes := unlink oneWoken.signaledPipes .head 0
  pipe := update oneWoken.pipe 0 none }

theorem acts_close : Acts oneWoken (command 2) oneClosed := acts_of_succ fun _ => rfl

/-- The guest closes the pipe that the host has woken: no pipe is signalled, and the line stays high. -/
theorem irq_high_after_close :
    Reach (· = init) Acts oneClosed ∧ oneClosed.irq = true ∧ oneClosed.signaledPipes .head = none :=
  ⟨.step (.step (.step (.start rfl) acts_open) acts_wake) acts_close, rfl, rfl⟩

end GemDroid.Goldfish

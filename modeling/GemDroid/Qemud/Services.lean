import GemDroid.Lib.Reach
import Mathlib.Data.List.Nodup

/-! Services and their clients (`android/hw-qemud.c`).

A service counts its clients beside the list of them, and may have a limit. Clients come
through the control channel, through pipes and from snapshots. Only the first way looks at
the limit, and the load of a service sets its counter to 0, whatever is in its list; the
serial clients are disconnected afterwards. -/
namespace GemDroid.Qemud.Services
open Lib List

variable {made : Option Nat}

/-! ### The model -/

abbrev Name := List UInt8

inductive Protocol where
  | pipe
  | serial
deriving DecidableEq, Repr

/-- A `QemudClient`; `id` stands for its address, as that of a service does. -/
structure Client where
  id : Nat
  protocol : Protocol
  channel : Int
  service : Option Nat
deriving DecidableEq, Repr

structure Service where
  id : Nat
  name : Name
  maxClients : Int
  numClients : Int
  clients : List Nat
deriving DecidableEq, Repr

variable {s sv : Service}

structure Multiplexer where
  clients : List Client
  services : List Service
deriving DecidableEq, Repr

variable {m : Multiplexer}

open Multiplexer

def serviceAddClient (c : Nat) (s : Service) : Service :=
  { s with clients := c :: s.clients, numClients := s.numClients + 1 }

def serviceRemoveClient (c : Nat) (s : Service) : Service :=
  if c ∈ s.clients then { s with clients := s.clients.erase c, numClients := s.numClients - 1 } else s

namespace Multiplexer

def serviceFind (m : Multiplexer) (name : Name) : Option Service := m.services.find? (·.name = name)

def updateService (m : Multiplexer) (id : Nat) (f : Service → Service) : Multiplexer :=
  { m with services := m.services.map fun s => if s.id = id then f s else s }

def serviceNew (m : Multiplexer) (id : Nat) (name : Name) (maxClients : Int) : Multiplexer :=
  { m with services := ⟨id, name, maxClients, 0, []⟩ :: m.services }

def clientNew (m : Multiplexer) (service id : Nat) (channel : Int) : Multiplexer :=
  let c : Client := ⟨id, if channel < 0 then .pipe else .serial, channel, some service⟩
  { m with clients := c :: m.clients }.updateService service (serviceAddClient id)

def serviceConnectClient (m : Multiplexer) (sv : Service) (channel : Int) (made : Option Nat) : Multiplexer :=
  match made with
  | none => m
  | some id => m.clientNew sv.id id channel

def clientDisconnect (m : Multiplexer) (c : Client) (guestClose : Bool) : Multiplexer :=
  if c.protocol = .pipe ∧ guestClose = false then m
  else
    let m := { m with clients := m.clients.filter (·.id ≠ c.id) }
    match c.service with
    | none => m
    | some sv => m.updateService sv (serviceRemoveClient c.id)

def connect (m : Multiplexer) (name : Name) (channel : Int) (made : Option Nat) : Int × Multiplexer :=
  match m.serviceFind name with
  | none => (-1, m)
  | some sv =>
    if sv.maxClients > 0 ∧ sv.numClients ≥ sv.maxClients then (-2, m)
    else (if made = none then -1 else 0, m.serviceConnectClient sv channel made)

def disconnect (m : Multiplexer) (channel : Int) : Multiplexer :=
  match m.clients.find? fun c => c.protocol = .serial ∧ c.channel = channel with
  | none => m
  | some c => m.clientDisconnect { c with channel := -1 } false

def disconnectNoncontrol (m : Multiplexer) : Multiplexer :=
  m.clients.foldl
    (fun m c =>
      if c.protocol = .serial ∧ c.channel > 0 then m.clientDisconnect { c with channel := -1 } false else m)
    m

def connectPipe (m : Multiplexer) (name : Name) (made : Option Nat) : Multiplexer :=
  match m.serviceFind name with
  | none => m
  | some sv => m.serviceConnectClient sv (-1) made

def pipeServiceName (args : Name) : Name := (args.takeWhile (· ≠ 0x3a)).take 511

def pipeInit (m : Multiplexer) (args : Name) (made : Option Nat) : Multiplexer :=
  m.connectPipe (pipeServiceName args) made

def pipeCloseFromGuest (m : Multiplexer) (id : Nat) : Multiplexer :=
  match m.clients.find? fun c => c.protocol = .pipe ∧ c.id = id with
  | none => m
  | some c => m.clientDisconnect c true

def clientClose (m : Multiplexer) (id : Nat) : Multiplexer :=
  match m.clients.find? fun c => c.id = id with
  | none => m
  | some c => m.clientDisconnect c false

end Multiplexer

/-- A service in a snapshot: its name if it can be read, and whether `serv_load` succeeds. -/
structure SavedService where
  name : Option Name
  maxClients : Int
  loads : Bool

/-- A serial client in a snapshot: the client that the service makes, and whether the rest
of its state can be loaded. -/
structure SavedClient where
  name : Option Name
  channel : Int
  made : Option Nat
  loads : Bool

namespace Multiplexer

def serviceLoad (m : Multiplexer) (saved : SavedService) : Bool × Multiplexer :=
  match saved.name.bind m.serviceFind with
  | none => (false, m)
  | some sv =>
    (saved.loads, m.updateService sv.id fun s => { s with maxClients := saved.maxClients, numClients := 0 })

def serialClientLoad (m : Multiplexer) (saved : SavedClient) : Bool × Multiplexer :=
  match saved.name.bind m.serviceFind with
  | none => (false, m)
  | some sv =>
    if saved.channel = 0 then (false, m)
    else (saved.made.isSome && saved.loads, m.serviceConnectClient sv saved.channel saved.made)

def loadServices (m : Multiplexer) : List SavedService → Bool × Multiplexer
  | [] => (true, m)
  | saved :: rest =>
    let (ok, m) := m.serviceLoad saved
    if ok then loadServices m rest else (false, m)

def loadSerialClients (m : Multiplexer) : List SavedClient → Bool × Multiplexer
  | [] => (true, m)
  | saved :: rest =>
    let (ok, m) := m.serialClientLoad saved
    if ok then loadSerialClients m rest else (false, m)

def load (m : Multiplexer) (services : List SavedService) (clients : List SavedClient) : Bool × Multiplexer :=
  let (ok, m) := m.loadServices services
  if ok then m.disconnectNoncontrol.loadSerialClients clients else (false, m)

end Multiplexer

/-! ### What holds of a service -/

/-- The counter is the length of the list, and within the limit if there is one. -/
def Right (s : Service) : Prop :=
  s.numClients = s.clients.length ∧ (0 < s.maxClients → s.numClients ≤ s.maxClients)

instance (s : Service) : Decidable (Right s) := inferInstanceAs (Decidable (_ ∧ _))

def HasRoom (s : Service) : Prop := 0 < s.maxClients → s.numClients < s.maxClients

theorem right_add_iff (h : Right s) (c : Nat) : Right (serviceAddClient c s) ↔ HasRoom s := by
  have hcount : s.numClients + 1 = ((c :: s.clients).length : Int) := by
    rw [h.1, length_cons]
    push_cast
    rfl
  rw [Right, serviceAddClient, HasRoom]
  constructor
  · intro hright hmax
    have := hright.2 hmax
    simp only at this
    omega
  · intro hroom
    refine ⟨hcount, fun hmax => ?_⟩
    have := hroom hmax
    simp only
    omega

theorem right_remove (h : Right s) (c : Nat) : Right (serviceRemoveClient c s) := by
  rw [serviceRemoveClient]
  split
  · rename_i hmem
    have hpos : 0 < s.clients.length := length_pos_of_mem hmem
    constructor
    · have := h.1
      simp only [length_erase_of_mem hmem]
      omega
    · intro hmax
      have := h.2 hmax
      simp only
      omega
  · exact h

theorem right_load_iff (s : Service) (maxClients : Int) :
    Right { s with maxClients := maxClients, numClients := 0 } ↔ s.clients = [] := by
  constructor
  · intro hright
    have := hright.1
    simp only at this
    exact length_eq_zero_iff.mp (by omega)
  · intro hnil
    rw [hnil]
    exact ⟨rfl, Int.le_of_lt⟩

/-! ### What holds of the multiplexer -/

structure AllRight (m : Multiplexer) : Prop where
  distinct : (m.services.map Service.id).Nodup
  right : ∀ s ∈ m.services, Right s

section Steps

section
variable (h : AllRight m)
include h

variable {name : Name}

theorem AllRight.find (hfind : m.serviceFind name = some sv) (hs : s ∈ m.services) (hid : s.id = sv.id) : s = sv := by
  have hsv : sv ∈ m.services := mem_of_find?_eq_some hfind
  exact inj_on_of_nodup_map h.distinct hs hsv hid

variable (id : Nat)

theorem AllRight.updateService {f : Service → Service} (hid : ∀ s, (f s).id = s.id)
    (hf : ∀ s ∈ m.services, s.id = id → Right (f s)) : AllRight (m.updateService id f) := by
  constructor
  · have hids : (m.updateService id f).services.map Service.id = m.services.map Service.id := by
      rw [Multiplexer.updateService, map_map]
      apply map_congr_left
      intro s _
      simp only [Function.comp]
      split
      · exact hid s
      · rfl
    rw [hids]
    exact h.distinct
  · intro s hs
    obtain ⟨s₀, hs₀, rfl⟩ := mem_map.mp hs
    split
    · rename_i heq
      exact hf s₀ hs₀ heq
    · exact h.right s₀ hs₀

theorem AllRight.clients (clients : List Client) : AllRight { m with clients := clients } :=
  ⟨h.distinct, h.right⟩

theorem AllRight.connectClient
    (hfind : m.serviceFind name = some sv) (channel : Int) (hroom : made ≠ none → HasRoom sv) :
    AllRight (m.serviceConnectClient sv channel made) := by
  cases made with
  | none => exact h
  | some id =>
    apply (h.clients _).updateService
    · exact fun _ => rfl
    · intro s hs hid
      obtain rfl := h.find hfind hs hid
      exact (right_add_iff (h.right s hs) id).mpr (hroom nofun)

theorem AllRight.clientDisconnect (c : Client) (guestClose : Bool) : AllRight (m.clientDisconnect c guestClose) := by
  rw [Multiplexer.clientDisconnect]
  split
  · exact h
  split
  · exact h.clients _
  apply (h.clients _).updateService
  · intro s
    rw [serviceRemoveClient]
    split <;> rfl
  · exact fun s hs _ => right_remove (h.right s hs) c.id

theorem AllRight.connect (name : Name) (channel : Int) (made : Option Nat) :
    AllRight (m.connect name channel made).2 := by
  rw [Multiplexer.connect]
  split
  · exact h
  rename_i sv hfind
  split
  · exact h
  rename_i hfree
  apply h.connectClient hfind
  intro _ hmax
  by_contra hge
  exact hfree ⟨hmax, by omega⟩

theorem AllRight.connectPipe
    (hroom : ∀ sv, m.serviceFind name = some sv → made ≠ none → HasRoom sv) : AllRight (m.connectPipe name made) := by
  rw [Multiplexer.connectPipe]
  split
  · exact h
  · rename_i sv hfind
    exact h.connectClient hfind (-1) (hroom sv hfind)

theorem AllRight.disconnect (channel : Int) : AllRight (m.disconnect channel) := by
  rw [Multiplexer.disconnect]
  split
  · exact h
  · exact h.clientDisconnect _ _

theorem AllRight.pipeCloseFromGuest : AllRight (m.pipeCloseFromGuest id) := by
  rw [Multiplexer.pipeCloseFromGuest]
  split
  · exact h
  · exact h.clientDisconnect _ _

theorem AllRight.clientClose : AllRight (m.clientClose id) := by
  rw [Multiplexer.clientClose]
  split
  · exact h
  · exact h.clientDisconnect _ _

theorem AllRight.disconnectNoncontrol : AllRight m.disconnectNoncontrol := by
  rw [Multiplexer.disconnectNoncontrol]
  -- each client of the list is disconnected in the state the ones before it leave
  generalize m.clients = clients
  induction clients generalizing m with
  | nil => exact h
  | cons c clients ih =>
    rw [foldl_cons]
    apply ih
    split
    · exact h.clientDisconnect _ _
    · exact h

theorem AllRight.serviceLoad {saved : SavedService}
    (hempty : ∀ sv, saved.name.bind m.serviceFind = some sv → sv.clients = []) : AllRight (m.serviceLoad saved).2 := by
  rw [Multiplexer.serviceLoad]
  split
  · exact h
  rename_i sv hfind
  apply h.updateService
  · exact fun _ => rfl
  · intro s hs hid
    obtain ⟨name, -, hname⟩ := Option.bind_eq_some_iff.mp hfind
    obtain rfl := h.find hname hs hid
    exact (right_load_iff s saved.maxClients).mpr (hempty s hfind)

theorem AllRight.serialClientLoad {saved : SavedClient}
    (hroom : ∀ sv, saved.name.bind m.serviceFind = some sv → saved.channel ≠ 0 → saved.made ≠ none → HasRoom sv) :
    AllRight (m.serialClientLoad saved).2 := by
  rw [Multiplexer.serialClientLoad]
  split
  · exact h
  rename_i sv hfind
  split
  · exact h
  · rename_i hchannel
    obtain ⟨name, -, hname⟩ := Option.bind_eq_some_iff.mp hfind
    exact h.connectClient hname saved.channel (hroom sv hfind hchannel)

end

end Steps

/-! ### Runs -/

/-- The calls that a run is made of. Those of a load are the last three. -/
inductive Act where
  | register (id : Nat) (name : Name) (maxClients : Int)
  | connect (name : Name) (channel : Int) (made : Option Nat)
  | disconnect (channel : Int)
  | pipeInit (args : Name) (made : Option Nat)
  | pipeLoad (name : Name) (made : Option Nat)
  | pipeClose (id : Nat)
  | clientClose (id : Nat)
  | serviceLoad (saved : SavedService)
  | disconnectNoncontrol
  | clientLoad (saved : SavedClient)

def step (m : Multiplexer) : Act → Multiplexer
  | .register id name maxClients => m.serviceNew id name maxClients
  | .connect name channel made => (m.connect name channel made).2
  | .disconnect channel => m.disconnect channel
  | .pipeInit args made => m.pipeInit args made
  | .pipeLoad name made => m.connectPipe name made
  | .pipeClose id => m.pipeCloseFromGuest id
  | .clientClose id => m.clientClose id
  | .serviceLoad saved => (m.serviceLoad saved).2
  | .disconnectNoncontrol => m.disconnectNoncontrol
  | .clientLoad saved => (m.serialClientLoad saved).2

def Acts (m : Multiplexer) (a : Act) (m' : Multiplexer) : Prop :=
  (∀ id name maxClients, a = .register id name maxClients → ∀ s ∈ m.services, s.id ≠ id) ∧ m' = step m a

/-- After `qemud_multiplexer_init`: the client of the control channel. -/
def Starts (m : Multiplexer) : Prop := ∃ id, m = ⟨[⟨id, .serial, 0, none⟩], []⟩

/-- A client that comes through a pipe or from a snapshot finds room, and a service is loaded
only while it has no clients. -/
def Meets (m : Multiplexer) : Act → Prop
  | .pipeInit args made =>
    ∀ sv, m.serviceFind (Multiplexer.pipeServiceName args) = some sv → made ≠ none → HasRoom sv
  | .pipeLoad name made => ∀ sv, m.serviceFind name = some sv → made ≠ none → HasRoom sv
  | .clientLoad saved =>
    ∀ sv, saved.name.bind m.serviceFind = some sv → saved.channel ≠ 0 → saved.made ≠ none → HasRoom sv
  | .serviceLoad saved => ∀ sv, saved.name.bind m.serviceFind = some sv → sv.clients = []
  | _ => True

theorem step_right {a : Act} (h : AllRight m) (hmeets : Meets m a)
    (hnew : ∀ id name maxClients, a = .register id name maxClients → ∀ s ∈ m.services, s.id ≠ id) :
    AllRight (step m a) := by
  cases a with
  | register id name maxClients =>
    constructor
    · refine nodup_cons.mpr ⟨fun hmem => ?_, h.distinct⟩
      obtain ⟨s, hs, hid⟩ := mem_map.mp hmem
      exact hnew id name maxClients rfl s hs hid
    · intro s hs
      obtain rfl | hs := mem_cons.mp hs
      · exact ⟨rfl, Int.le_of_lt⟩
      · exact h.right s hs
  | connect name channel made => exact h.connect name channel made
  | disconnect channel => exact h.disconnect channel
  | pipeInit args made | pipeLoad name made => exact h.connectPipe hmeets
  | pipeClose id => exact h.pipeCloseFromGuest id
  | clientClose id => exact h.clientClose id
  | serviceLoad saved => exact h.serviceLoad hmeets
  | disconnectNoncontrol => exact h.disconnectNoncontrol
  | clientLoad saved => exact h.serialClientLoad hmeets

theorem reach_load (h : Reach Starts Acts m) (services : List SavedService)
    (clients : List SavedClient) : Reach Starts Acts (m.load services clients).2 := by
  have hservices : ∀ m : Multiplexer, Reach Starts Acts m → Reach Starts Acts (m.loadServices services).2 := by
    induction services with
    | nil => exact fun m h => h
    | cons saved rest ih =>
      intro m h
      have hstep : Reach Starts Acts (m.serviceLoad saved).2 := .step (a := .serviceLoad saved) h ⟨nofun, rfl⟩
      simp only [loadServices]
      split
      · exact ih _ hstep
      · exact hstep
  have hclients : ∀ m : Multiplexer, Reach Starts Acts m → Reach Starts Acts (m.loadSerialClients clients).2 := by
    induction clients with
    | nil => exact fun m h => h
    | cons saved rest ih =>
      intro m h
      have hstep : Reach Starts Acts (m.serialClientLoad saved).2 := .step (a := .clientLoad saved) h ⟨nofun, rfl⟩
      simp only [loadSerialClients]
      split
      · exact ih _ hstep
      · exact hstep
  simp only [load]
  split
  · exact hclients _ (.step (a := .disconnectNoncontrol) (hservices m h) ⟨nofun, rfl⟩)
  · exact hservices m h

/-- In a run in which pipes and snapshots bring clients only where there is room and services
are loaded only without clients, each service counts its clients and keeps its limit. -/
theorem services_right {m : Multiplexer}
    (h : Reach Starts (fun m a m' => Meets m a ∧ Acts m a m') m) : ∀ s ∈ m.services, Right s := by
  have hinv : AllRight m := by
    apply h.invariant
    · intro m ⟨id, hm⟩
      rw [hm]
      exact ⟨nodup_nil, nofun⟩
    · intro m a m' hright ⟨hmeets, hnew, hm'⟩
      rw [hm']
      exact step_right hright hmeets hnew
  exact hinv.right

def oneService : Multiplexer := ⟨[⟨0, .serial, 0, none⟩], [⟨1, [0x61], 1, 0, []⟩]⟩

def oneClient : Multiplexer :=
  ⟨[⟨2, .serial, 1, some 1⟩, ⟨0, .serial, 0, none⟩], [⟨1, [0x61], 1, 1, [2]⟩]⟩

/-- The client goes, the service is loaded, and a pipe brings the next client. -/
theorem oneClient_right : Right ⟨1, [0x61], 1, 1, [2]⟩ ∧ Right ⟨1, [0x61], 1, 1, [3]⟩ := by
  have hservice : Reach Starts (fun m a m' => Meets m a ∧ Acts m a m') oneService :=
    .step (a := .register 1 [0x61] 1) (.start ⟨0, rfl⟩) ⟨trivial, fun _ _ _ _ => nofun, rfl⟩
  have hclient : Reach Starts (fun m a m' => Meets m a ∧ Acts m a m') oneClient :=
    .step (a := .connect [0x61] 1 (some 2)) hservice ⟨trivial, nofun, by decide⟩
  have hgone : Reach Starts (fun m a m' => Meets m a ∧ Acts m a m') oneService :=
    .step (a := .disconnect 1) hclient ⟨trivial, nofun, by decide⟩
  have hloaded : Reach Starts (fun m a m' => Meets m a ∧ Acts m a m') oneService := by
    refine .step (a := .serviceLoad ⟨some [0x61], 1, true⟩) hgone ⟨fun sv hsv => ?_, nofun, by decide⟩
    cases hsv
    rfl
  have hpipe : Reach Starts (fun m a m' => Meets m a ∧ Acts m a m')
      ⟨[⟨3, .pipe, -1, some 1⟩, ⟨0, .serial, 0, none⟩], [⟨1, [0x61], 1, 1, [3]⟩]⟩ := by
    refine .step (a := .pipeInit [0x61] (some 3)) hloaded ⟨fun sv hsv _ => ?_, nofun, by decide⟩
    cases hsv
    exact fun _ => by decide
  exact ⟨services_right hclient _ (mem_singleton_self _), services_right hpipe _ (mem_singleton_self _)⟩

/-- A pipe brings a second client. In another run the state with one client is loaded
again: the counter is 0 and the list has the client. -/
theorem counter_goes_wrong : (∃ m, Reach Starts Acts m ∧ ∃ s ∈ m.services, s.maxClients = 1 ∧ s.numClients = 2) ∧
      ∃ m, Reach Starts Acts m ∧ ∃ s ∈ m.services, s.numClients = 0 ∧ s.clients = [3] := by
  have hservice : Reach Starts Acts oneService :=
    .step (a := .register 1 [0x61] 1) (.start ⟨0, rfl⟩) ⟨fun _ _ _ _ => nofun, rfl⟩
  have hclient : Reach Starts Acts oneClient :=
    .step (a := .connect [0x61] 1 (some 2)) hservice ⟨nofun, by decide⟩
  constructor
  · exact ⟨_, .step (a := .pipeInit [0x61] (some 3)) hclient ⟨nofun, rfl⟩, by decide⟩
  · exact ⟨_, reach_load hclient [⟨some [0x61], 1, true⟩] [⟨some [0x61], 1, some 3, true⟩], by decide⟩

end GemDroid.Qemud.Services

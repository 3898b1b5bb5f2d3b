import Mathlib.Logic.Function.Basic
import Adwarden.Lib.Automaton
import Adwarden.Vpn.Config

/-! The VPN service and the native sessions it holds, as threads and coroutines that take turns:
each native call, each access to `nativeHandle` and each suspension point is one step. -/
namespace Adwarden.Vpn
open Adwarden.Lib

/-- The collectors that `startObservers` launches. -/
inductive Observer where
  | config | filter | firewall | network | logOpen | proxy
deriving DecidableEq

/-- The main thread, a collector of a service scope, or a job that `scheduleV6Reconcile` launched
in one. -/
inductive TaskId where
  | main
  | collector (scope : ℕ) (observer : Observer)
  | reconcile (scope n : ℕ)
deriving DecidableEq

def TaskId.scope : TaskId → Option ℕ
  | .main => none
  | .collector scope _ => some scope
  | .reconcile scope _ => some scope

/-- Which `nativeUpdate*` or `nativeSetLogOpen` a call is. -/
inductive UpdateKind where
  | config | filter | firewall | network | logOpen
deriving DecidableEq

/-- What the native core and its callers see, in order. A `nativeStop(0)` does nothing and is not
recorded; `stopped` marks that `stopEverything` completed, with the tasks that were then inside
`reestablishTunnel`. -/
inductive Call where
  | start (task : TaskId) (handle : ℕ)
  | stop (handle : ℕ)
  | update (kind : UpdateKind) (handle : ℕ)
  | stopped (still : TaskId → Bool)
  | returned (task : TaskId)

/-- Where a task stands, with its local variables. -/
inductive Pc where
  | idle
  -- startCapture
  | startTunnel
  | startConfig
  | startNative (config : NativeConfig)
  | startPublish (handle : ℕ)
  | startRunning
  | startObservers
  | startFilter
  | startPush (handle : ℕ)
  -- stopEverything
  | stopMark
  | stopTest
  | stopRead
  | stopCall (handle : ℕ)
  | stopClear
  | stopDone
  -- reestablishTunnel, and what its two callers do first
  | awaitLock (checked : Bool)
  | checkRunning
  | reRead
  | reStop (old : ℕ)
  | reClear
  | reTunnel
  | reConfig
  | reNative (config : NativeConfig)
  | rePublish (handle : ℕ)
  | reFilter (handle : ℕ)
  | awaitRules (handle : ℕ)
  | reFirewall (handle : ℕ)
  | awaitNetwork (handle : ℕ)
  | reNetwork (handle : ℕ)
  | reLogOpen (handle : ℕ)
  -- the other collectors
  | resolve (handle : ℕ) (config : LiveConfig)
  | pushConfig (handle : ℕ) (config : NativeConfig)
  | push (kind : UpdateKind) (handle : ℕ)
deriving DecidableEq

/-- Inside `reestablishTunnel`. -/
def Pc.reestablishing : Pc → Bool
  | .reRead | .reStop _ | .reClear | .reTunnel | .reConfig | .reNative _ | .rePublish _
  | .reFilter _ | .awaitRules _ | .reFirewall _ | .awaitNetwork _ | .reNetwork _
  | .reLogOpen _ => true
  | _ => false

/-- The part of the state that the tasks share. `config` is what is in force in each session, and
`last` the value that the config collector of each scope saw last. -/
structure Shared where
  nativeHandle : ℕ
  running : Bool
  serviceScope : Option ℕ
  nextScope : ℕ
  cancelled : List ℕ
  v6Mutex : Option TaskId
  settings : LiveConfig
  last : ℕ → Option LiveConfig
  nextHandle : ℕ
  config : ℕ → NativeConfig
  log : List Call

structure Service where
  shared : Shared
  tasks : TaskId → Pc

namespace Shared

def record (s : Shared) (c : Call) : Shared := { s with log := s.log ++ [c] }

/-- `nativeStart`: the boxed session's address, never one handed out before. -/
def nativeStart (s : Shared) (t : TaskId) (config : NativeConfig) : Shared :=
  { s with
    nextHandle := s.nextHandle + 1
    config := Function.update s.config s.nextHandle config
    log := s.log ++ [.start t s.nextHandle] }

def nativeStop (s : Shared) (handle : ℕ) : Shared :=
  if handle = 0 then s else s.record (.stop handle)

def nativeUpdate (s : Shared) (kind : UpdateKind) (handle : ℕ) : Shared :=
  s.record (.update kind handle)

def nativeUpdateConfig (s : Shared) (handle : ℕ) (config : NativeConfig) : Shared :=
  { s.nativeUpdate .config handle with config := Function.update s.config handle config }

/-- `running = false`, and the scope is cancelled and dropped. -/
def markStopped (s : Shared) : Shared :=
  { s with
    running := false
    serviceScope := none
    cancelled := s.serviceScope.toList ++ s.cancelled }

def launchObservers (s : Shared) : Shared :=
  { s with serviceScope := some s.nextScope, nextScope := s.nextScope + 1 }

def unlock (s : Shared) (t : TaskId) : Shared :=
  if s.v6Mutex = some t then { s with v6Mutex := none } else s

def isCancelled (s : Shared) (t : TaskId) : Bool :=
  match t.scope with
  | none => false
  | some scope => s.cancelled.contains scope

/-- The next step of a task. `ok` says how a step that can fail turns out: whether the tunnel is
established, the core starts, an engine is compiled, the wanted IPv6 state differs. -/
def advance (platform : Platform) (s : Shared) (still : TaskId → Bool) (t : TaskId) (ok : Bool) :
    Pc → Option (Shared × Pc)
  | .idle => none
  | .startTunnel => some (s, if ok then .startConfig else .stopMark)
  | .startConfig => some (s, .startNative (s.settings.native platform))
  | .startNative config =>
    some (if ok then (s.nativeStart t config, .startPublish s.nextHandle) else (s, .stopMark))
  | .startPublish handle => some ({ s with nativeHandle := handle }, .startRunning)
  | .startRunning => some ({ s with running := true }, .startObservers)
  | .startObservers => some (s.launchObservers, .startFilter)
  | .startFilter => some (s, if ok then .startPush s.nativeHandle else .idle)
  | .startPush handle => some (s.nativeUpdate .filter handle, .idle)
  | .stopMark => some (s.markStopped, .stopTest)
  | .stopTest => some (s, if s.nativeHandle = 0 then .stopDone else .stopRead)
  | .stopRead => some (s, .stopCall s.nativeHandle)
  | .stopCall handle => some (s.nativeStop handle, .stopClear)
  | .stopClear => some ({ s with nativeHandle := 0 }, .stopDone)
  | .stopDone => some ((s.record (.stopped still)).unlock t, .idle)
  | .awaitLock checked =>
    if s.v6Mutex = none then
      some ({ s with v6Mutex := some t }, if checked then .reRead else .checkRunning)
    else none
  | .checkRunning => some (if s.running && ok then (s, .reRead) else (s.unlock t, .idle))
  | .reRead => some (s, .reStop s.nativeHandle)
  | .reStop old => some (s.nativeStop old, .reClear)
  | .reClear => some ({ s with nativeHandle := 0 }, .reTunnel)
  | .reTunnel => some (s, if ok then .reConfig else .stopMark)
  | .reConfig => some (s, .reNative (s.settings.native platform))
  | .reNative config =>
    some (if ok then (s.nativeStart t config, .rePublish s.nextHandle) else (s, .stopMark))
  | .rePublish handle => some ({ s with nativeHandle := handle }, .reFilter handle)
  | .reFilter handle =>
    some (if ok then s.nativeUpdate .filter handle else s, .awaitRules handle)
  | .awaitRules handle => some (s, .reFirewall handle)
  | .reFirewall handle => some (s.nativeUpdate .firewall handle, .awaitNetwork handle)
  | .awaitNetwork handle => some (s, .reNetwork handle)
  | .reNetwork handle => some (s.nativeUpdate .network handle, .reLogOpen handle)
  | .reLogOpen handle =>
    some (((s.nativeUpdate .logOpen handle).record (.returned t)).unlock t, .idle)
  | .resolve handle config => some (s, .pushConfig handle (config.native platform))
  | .pushConfig handle config => some (s.nativeUpdateConfig handle config, .idle)
  | .push kind handle => some (s.nativeUpdate kind handle, .idle)

/-- A cancelled coroutine ends at a suspension point. -/
def abort (s : Shared) (t : TaskId) (pc : Pc) : Option (Shared × Pc) :=
  if s.isCancelled t then
    match pc with
    | .awaitLock _ | .resolve _ _ => some (s, .idle)
    | .awaitRules _ | .awaitNetwork _ => some ((s.record (.returned t)).unlock t, .idle)
    | _ => none
  else none

/-- A collector takes an emission, and reads `nativeHandle` or `running` once before it suspends or
calls the core. The config collector drops a value equal to the one before it. -/
def emit (s : Shared) (scope : ℕ) : Observer → Option (Shared × Pc)
  | .proxy => some (s, if s.running then .awaitLock true else .idle)
  | .config =>
    if s.last scope = some s.settings then none
    else
      some ({ s with last := Function.update s.last scope (some s.settings) },
        if s.nativeHandle = 0 then .idle else .resolve s.nativeHandle s.settings)
  | .filter => some (s, if s.nativeHandle = 0 then .idle else .push .filter s.nativeHandle)
  | .firewall => some (s, if s.nativeHandle = 0 then .idle else .push .firewall s.nativeHandle)
  | .network => some (s, if s.nativeHandle = 0 then .idle else .push .network s.nativeHandle)
  | .logOpen => some (s, if s.nativeHandle = 0 then .idle else .push .logOpen s.nativeHandle)

end Shared

/-- What can happen next: the main thread gets an intent (`onStartCommand`, `onRevoke`,
`onDestroy`) or a network callback, the settings are edited, a collector takes an emission, or a
task goes on. -/
inductive Event where
  | start
  | stop
  | network (n : ℕ)
  | edit (settings : LiveConfig)
  | emit (scope : ℕ) (observer : Observer)
  | run (task : TaskId) (ok : Bool)
  | abort (task : TaskId)

namespace Service

def setTask (s : Service) (t : TaskId) (r : Shared × Pc) : Service :=
  ⟨r.1, Function.update s.tasks t r.2⟩

def reestablishing (s : Service) (t : TaskId) : Bool := (s.tasks t).reestablishing

def step (platform : Platform) (s : Service) : Event → Option Service
  | .start =>
    if s.tasks .main = .idle then
      some (s.setTask .main (s.shared, if s.shared.running then .idle else .startTunnel))
    else none
  | .stop =>
    if s.tasks .main = .idle then some (s.setTask .main (s.shared, .stopMark)) else none
  | .network n =>
    match s.shared.serviceScope with
    | none => none
    | some scope =>
      if s.tasks .main = .idle ∧ s.tasks (.reconcile scope n) = .idle then
        some (s.setTask (.reconcile scope n) (s.shared, .awaitLock false))
      else none
  | .edit settings => some { s with shared := { s.shared with settings := settings } }
  | .emit scope observer =>
    if scope < s.shared.nextScope ∧ s.shared.cancelled.contains scope = false ∧
        s.tasks (.collector scope observer) = .idle then
      (s.shared.emit scope observer).map (s.setTask (.collector scope observer))
    else none
  | .run t ok => (s.shared.advance platform s.reestablishing t ok (s.tasks t)).map (s.setTask t)
  | .abort t => (s.shared.abort t (s.tasks t)).map (s.setTask t)

/-- A created service that has started nothing. -/
def created (platform : Platform) (settings : LiveConfig) : Service where
  shared :=
    { nativeHandle := 0
      running := false
      serviceScope := none
      nextScope := 0
      cancelled := []
      v6Mutex := none
      settings := settings
      last := fun _ => none
      nextHandle := 1
      config := fun _ => settings.native platform
      log := [] }
  tasks := fun _ => .idle

end Service

def service (platform : Platform) (settings : LiveConfig) : Automaton Service Event :=
  ⟨Service.created platform settings, Service.step platform⟩

end Adwarden.Vpn

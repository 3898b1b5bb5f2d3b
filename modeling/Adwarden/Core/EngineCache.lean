import Adwarden.Core.Flow
import Adwarden.Lib.Automaton

/-! The cache file of the filter engine: the compiler writes it while the forwarder may be reading
it, and each load replaces the engine in force. -/
namespace Adwarden.Core
open Adwarden.Lib Adwarden.Tls

/-- What is used of the filter library: `E` are its engines, and `R` its resource packs. -/
structure EngineLib (E R : Type) where
  serialize : E → Bytes
  deserialize : Bytes → Option E
  parseResources : Str → Option R
  useResources : E → R → E
  decisions : E → FilterEngine

variable {E R : Type}

namespace EngineLib

/-- Only complete serializations are accepted. -/
def AcceptsComplete (lib : EngineLib E R) : Prop :=
  ∀ bytes engine, lib.deserialize bytes = some engine → ∃ compiled, bytes = lib.serialize compiled

/-- A resource pack that does not parse is left out. -/
def withResources (lib : EngineLib E R) (engine : E) (resourcesJson : Option Str) : E :=
  match resourcesJson.bind lib.parseResources with
  | some resources => lib.useResources engine resources
  | none => engine

def fromSerializedWithResources (lib : EngineLib E R) (bytes : Bytes)
    (resourcesJson : Option Str) : Option E :=
  (lib.deserialize bytes).map fun engine => lib.withResources engine resourcesJson

/-- The decisions of an engine that was completely compiled, and restored from its cache. -/
def Compiled (lib : EngineLib E R) (f : FilterEngine) : Prop :=
  ∃ compiled engine resourcesJson,
    lib.deserialize (lib.serialize compiled) = some engine ∧
      f = lib.decisions (lib.withResources engine resourcesJson)

end EngineLib

/-- `load_engine` on what reading its two files gives. -/
def EngineLib.loadEngine (lib : EngineLib E R) (engine : Option FilterEngine)
    (file pack : Option Bytes) : Option FilterEngine :=
  match file with
  | none => engine
  | some bytes =>
    (lib.fromSerializedWithResources bytes (pack.bind Str.fromUtf8)).map lib.decisions

/-- The files, what the compiler still has to write, and the engine of the forwarder. -/
structure EngineCache where
  file : Option Bytes
  pack : Option Bytes
  writing : Option Bytes
  engine : Option FilterEngine

/-- What happens to the files, and the loads between. `fs::write` truncates the file first; it can
stop after any number of bytes. The files can also get any other content. -/
inductive CacheAct (E : Type) where
  | compile (engine : E)
  | write (n : ℕ)
  | stopWriting
  | replaceFile (content : Option Bytes)
  | replacePack (content : Option Bytes)
  | load (readable packReadable : Bool)

namespace EngineCache

def step (lib : EngineLib E R) (s : EngineCache) : CacheAct E → Option EngineCache
  | .compile engine =>
    if s.writing.isSome then none
    else some { s with file := some [], writing := some (lib.serialize engine) }
  | .write n =>
    match s.writing with
    | none => none
    | some rest =>
      some { s with file := some (s.file.getD [] ++ rest.take n), writing := some (rest.drop n) }
  | .stopWriting => some { s with writing := none }
  | .replaceFile content => some { s with file := content }
  | .replacePack content => some { s with pack := content }
  | .load readable packReadable =>
    let file := if readable then s.file else none
    let pack := if packReadable then s.pack else none
    some { s with engine := lib.loadEngine s.engine file pack }

/-- At first there is no engine; the files can be any. -/
def automaton (lib : EngineLib E R) (file pack : Option Bytes) :
    Automaton EngineCache (CacheAct E) where
  init := ⟨file, pack, none, none⟩
  step := step lib

variable (lib : EngineLib E R)

/-- The engine in force is one that was completely compiled. -/
def InForce (s : EngineCache) : Prop := ∃ f, s.engine = some f ∧ lib.Compiled f

/-- A load that reads the file finds a complete serialization in it. -/
def LoadsComplete (s : EngineCache) : CacheAct E → Prop
  | .load true _ => ∀ bytes, s.file = some bytes → (lib.deserialize bytes).isSome
  | _ => True

/-- The one action that touches the engine is a load that reads the file. -/
theorem engine_step {s s' : EngineCache} {a : CacheAct E} (h : step lib s a = some s') :
    (LoadsComplete lib s a ∧ s'.engine = s.engine) ∨
      ∃ packReadable bytes resourcesJson, a = .load true packReadable ∧ s.file = some bytes ∧
        s'.engine =
          (lib.fromSerializedWithResources bytes resourcesJson).map lib.decisions := by
  cases a with
  | compile engine =>
    unfold step at h
    split_ifs at h
    obtain rfl := Option.some.inj h
    exact Or.inl ⟨trivial, rfl⟩
  | write n =>
    unfold step at h
    cases hw : s.writing with
    | none => simp [hw] at h
    | some rest =>
      rw [hw] at h
      obtain rfl := Option.some.inj h
      exact Or.inl ⟨trivial, rfl⟩
  | stopWriting =>
    obtain rfl := Option.some.inj h
    exact Or.inl ⟨trivial, rfl⟩
  | replaceFile content =>
    obtain rfl := Option.some.inj h
    exact Or.inl ⟨trivial, rfl⟩
  | replacePack content =>
    obtain rfl := Option.some.inj h
    exact Or.inl ⟨trivial, rfl⟩
  | load readable packReadable =>
    obtain rfl := Option.some.inj h
    cases readable with
    | false => exact Or.inl ⟨trivial, rfl⟩
    | true =>
      cases hf : s.file with
      | none =>
        left
        simp [LoadsComplete, EngineLib.loadEngine, hf]
      | some bytes =>
        right
        let pack := if packReadable then s.pack else none
        exact ⟨packReadable, bytes, pack.bind Str.fromUtf8, rfl, rfl, rfl⟩

/-- Whatever is loaded was completely compiled, so an engine in force always was. -/
theorem compiled_step (hlib : lib.AcceptsComplete) {s s' : EngineCache} {a : CacheAct E}
    (hs : ∀ f, s.engine = some f → lib.Compiled f) (h : step lib s a = some s') :
    ∀ f, s'.engine = some f → lib.Compiled f := by
  intro f hf
  rcases engine_step lib h with ⟨-, he⟩ | ⟨_, bytes, resourcesJson, -, -, he⟩
  · exact hs f (he ▸ hf)
  · rw [he] at hf
    obtain ⟨engine, hload, rfl⟩ := Option.map_eq_some_iff.mp hf
    obtain ⟨restored, hd, rfl⟩ := Option.map_eq_some_iff.mp hload
    obtain ⟨compiled, rfl⟩ := hlib bytes restored hd
    exact ⟨compiled, restored, resourcesJson, hd, rfl⟩

theorem compiled_reachable (hlib : lib.AcceptsComplete) {file pack : Option Bytes}
    {s : EngineCache} (hs : (automaton lib file pack).Reachable s) :
    ∀ f, s.engine = some f → lib.Compiled f := by
  have hkeep : (automaton lib file pack).Keeps
      fun s => ∀ f, s.engine = some f → lib.Compiled f :=
    fun s a s' hs hstep => compiled_step lib hlib hs hstep
  refine hkeep.reachable ?_ hs
  intro f hf
  exact absurd hf (by simp [automaton])

/-- A step leaves an engine in force exactly if it loads nothing incomplete. -/
theorem isSome_step_iff {s s' : EngineCache} {a : CacheAct E}
    (hs : s.engine.isSome = true) (h : step lib s a = some s') :
    s'.engine.isSome = true ↔ LoadsComplete lib s a := by
  rcases engine_step lib h with ⟨hc, he⟩ | ⟨_, bytes, _, rfl, hf, he⟩
  · rw [he]
    exact iff_of_true hs hc
  · rw [he]
    simp [LoadsComplete, EngineLib.fromSerializedWithResources, hf]

/-- Once an engine has been loaded, a complete one stays in force all through a run if and only if
no load of the run reads an incomplete file. -/
theorem inForce_throughout_iff (hlib : lib.AcceptsComplete)
    {file pack : Option Bytes} {s : EngineCache}
    (hs : (automaton lib file pack).Reachable s) (hloaded : s.engine.isSome = true)
    (acts : List (CacheAct E)) :
    (∀ pre t, pre <+: acts → (automaton lib file pack).runFrom s pre = some t →
        InForce lib t) ↔
      (automaton lib file pack).EachStep (LoadsComplete lib) s acts := by
  have hin {t : EngineCache} (ht : (automaton lib file pack).Reachable t)
      (hsome : t.engine.isSome = true) : InForce lib t := by
    obtain ⟨f, hf⟩ := Option.isSome_iff_exists.mp hsome
    exact ⟨f, hf, compiled_reachable lib hlib ht f hf⟩
  induction acts generalizing s with
  | nil =>
    refine iff_of_true ?_ trivial
    intro pre t hpre ht
    obtain rfl := List.prefix_nil.mp hpre
    obtain rfl := Option.some.inj ht
    exact hin hs hloaded
  | cons a acts ih =>
    unfold Automaton.EachStep
    cases hstep : (automaton lib file pack).step s a with
    | none =>
      refine iff_of_true ?_ trivial
      intro pre t hpre ht
      cases pre with
      | nil =>
        obtain rfl := Option.some.inj ht
        exact hin hs hloaded
      | cons b pre =>
        obtain ⟨rfl, -⟩ := List.cons_prefix_cons.mp hpre
        obtain ⟨s', hs', -⟩ := (Automaton.runFrom_cons _).mp ht
        rw [hstep] at hs'
        contradiction
    | some s' =>
      have hiff := isSome_step_iff lib hloaded hstep
      constructor
      · intro hall
        have hrun : (automaton lib file pack).runFrom s [a] = some s' :=
          (Automaton.runFrom_cons _).mpr ⟨s', hstep, rfl⟩
        obtain ⟨f, hf, -⟩ := hall [a] s' (List.prefix_cons_inj a |>.mpr List.nil_prefix) hrun
        have hsome : s'.engine.isSome = true := by rw [hf]; rfl
        refine ⟨hiff.mp hsome, (ih (hs.step hstep) hsome).mp ?_⟩
        intro pre t hpre ht
        exact hall (a :: pre) t (List.prefix_cons_inj a |>.mpr hpre)
          ((Automaton.runFrom_cons _).mpr ⟨s', hstep, ht⟩)
      · rintro ⟨ha, hrest⟩ pre t hpre ht
        have hsome := hiff.mpr ha
        cases pre with
        | nil =>
          obtain rfl := Option.some.inj ht
          exact hin hs hloaded
        | cons b pre =>
          obtain ⟨rfl, hrestpre⟩ := List.cons_prefix_cons.mp hpre
          obtain ⟨r, hr, ht⟩ := (Automaton.runFrom_cons _).mp ht
          obtain rfl : s' = r := Option.some.inj (hstep.symm.trans hr)
          exact (ih (hs.step hstep) hsome).mpr hrest pre t hrestpre ht

/-- A library with one engine, which blocks everything. -/
def soleEngine : EngineLib Unit Unit where
  serialize _ := [7]
  deserialize bytes := if bytes = [7] then some () else none
  parseResources _ := none
  useResources engine _ := engine
  decisions _ := ⟨fun _ => true, fun _ => [], fun _ => []⟩

theorem soleEngine_acceptsComplete : soleEngine.AcceptsComplete := by
  intro bytes engine h
  refine ⟨(), ?_⟩
  by_contra hne
  simp [soleEngine, show bytes ≠ [7] from hne] at h

/-- The cache of an engine that has been loaded. -/
def loadedCache : EngineCache := ⟨some [7], none, none, some (soleEngine.decisions ())⟩

theorem reachable_loadedCache : (automaton soleEngine (some [7]) none).Reachable loadedCache :=
  ⟨[.load true true], rfl⟩

theorem inForce_throughout_reload :
    ∃ t, (automaton soleEngine (some [7]) none).runFrom loadedCache [.load true false] = some t ∧
      InForce soleEngine t := by
  refine ⟨_, rfl, (inForce_throughout_iff soleEngine soleEngine_acceptsComplete
    reachable_loadedCache rfl [.load true false]).mpr ⟨?_, trivial⟩ _ _ List.prefix_rfl rfl⟩
  rintro bytes hb
  obtain rfl := Option.some.inj hb
  rfl

/-- A load that comes between the truncation and the write finds an empty file. -/
theorem load_disarms_filter :
    soleEngine.AcceptsComplete ∧
      (automaton soleEngine (some [7]) none).Reachable loadedCache ∧
      loadedCache.engine.isSome = true ∧
      ∃ t, (automaton soleEngine (some [7]) none).runFrom loadedCache
        [.compile (), .load true true, .write 1, .stopWriting] = some t ∧
        ¬ InForce soleEngine t := by
  refine ⟨soleEngine_acceptsComplete, reachable_loadedCache, rfl, _, rfl, ?_⟩
  rintro ⟨f, hf, -⟩
  cases hf

end EngineCache

end Adwarden.Core

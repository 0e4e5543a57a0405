import ClassLang.Proofs.Registration.Traversal

/-!
# Registration lists nothing

Code is listed when bodies are compiled, and registration compiles none: the types of globals are
probed, and what a probe emits is thrown away. So the listing is still empty when the first body
is compiled.
-/

namespace ClassLang

open CompileM Lowering

/-- What is left of the state when the registry and the other lists are taken away is kept by all
steps of registration, but for those that register globals. -/
theorem enlists_keeps {γ : Type} (f : Compilation → γ) [hf : Persistent f]
    (hdesk : ∀ c, f c.desk = f c) : EnlistsNatives fun _ m => Keeps f m where
  reads m _ := keeps_of_reads m
  bind hm hg := @keeps_bind _ _ _ _ _ _ hm hg
  defer _ := keeps_modify fun _ => hf.eq _ _ rfl rfl rfl rfl
  files g hg := keeps_modifyGet fun c => by rw [← hdesk, hg, hdesk]
  define name d _ span := inferInstanceAs (Keeps _ (CompileM.define name d span))
  defineNative name n span := inferInstanceAs (Keeps _ (CompileM.define name (.native n) span))
  defineGlobal name d _ span := inferInstanceAs (Keeps _ (updateScopes (·.defineGlobal name d span)))
  allocGlobal _ := keeps_modifyGet fun _ => hf.eq _ _ rfl rfl rfl rfl
  attempt {_ m} hm := @keeps_attempt _ _ _ m hm
  inScope {_ kind body} hbody :=
    have : Keeps f body := hbody
    inferInstanceAs (Keeps _ (inScope kind body))
  inModule {_ path body} hbody :=
    have : Keeps f body := hbody
    inferInstanceAs (Keeps _ (inModule path body))

theorem indifferent_keeps {γ : Type} (f : Compilation → γ) : Indifferent fun _ m => Keeps f m where
  reads m _ := keeps_of_reads m

/-- The step lists no code. -/
def KeepsListing (α : Type) (m : CompileM α) : Prop := Keeps Compilation.listing m

instance : EnlistsNatives KeepsListing := enlists_keeps Compilation.listing fun _ => rfl

instance : Indifferent KeepsListing := indifferent_keeps Compilation.listing

instance : EnlistsBodies KeepsListing where
  queueBody _ _ := keeps_modify fun _ => rfl

instance : EnlistsGlobals KeepsListing where
  probeType e := inferInstanceAs (Keeps _ (probeType e))
  pushGlobal _ := keeps_modify fun _ => rfl

/-- The step registers no globals. -/
def KeepsGlobals (α : Type) (m : CompileM α) : Prop := Keeps Compilation.globals m

instance : EnlistsNatives KeepsGlobals := enlists_keeps Compilation.globals fun _ => rfl

instance : Indifferent KeepsGlobals := indifferent_keeps Compilation.globals

instance : EnlistsBodies KeepsGlobals where
  queueBody _ _ := keeps_modify fun _ => rfl

theorem KeepsGlobals.after {α : Type} {m : CompileM α} [hm : Has KeepsGlobals m]
    {c c' : Compilation} {a : α} (h : Yields m c a c') : c'.globals = c.globals :=
  have : Keeps Compilation.globals m := hm.out
  h.keeps

/-- The step queues no bodies. -/
def KeepsBodies (α : Type) (m : CompileM α) : Prop := Keeps Compilation.bodies m

instance : EnlistsNatives KeepsBodies := enlists_keeps Compilation.bodies fun _ => rfl

instance : Indifferent KeepsBodies := indifferent_keeps Compilation.bodies

instance : EnlistsGlobals KeepsBodies where
  probeType e := inferInstanceAs (Keeps _ (probeType e))
  pushGlobal _ := keeps_modify fun _ => rfl

theorem KeepsBodies.after {α : Type} {m : CompileM α} [hm : Has KeepsBodies m]
    {c c' : Compilation} {a : α} (h : Yields m c a c') : c'.bodies = c.bodies :=
  have : Keeps Compilation.bodies m := hm.out
  h.keeps

instance (p : Program) : Keeps Compilation.listing (Registration.run p) :=
  (inferInstance : Has KeepsListing (Registration.run p)).out

end ClassLang

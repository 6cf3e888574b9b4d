import StagedCodegen.Core.Builders
import StagedCodegen.Core.Fragments
import StagedCodegen.Pipeline

/-!
# The core helpers

The fragments and builders that every pipeline of the command line begins with, and their keys.
-/

namespace StagedCodegen.Core

variable {κ : Type}

/-- Where the core helpers come from. -/
def origin : String := "genpipe:core"

/-- The key of the fragment for resources. -/
def resourcesKey : String := "ir.resources.core"

/-- The key of the fragment for directories. -/
def layoutKey : String := "ir.layout.core"

/-- The core fragments with their keys and dependencies, in the order of registration. -/
def fragments : List (FragmentEntry × FragmentBehaviour κ) :=
  [(⟨"ir.meta.core", [], .extend, some origin⟩, identityFragment),
    (⟨layoutKey, [], .extend, some origin⟩, layoutFragment),
    (⟨resourcesKey, [], .extend, some origin⟩, resourcesFragment),
    (⟨"ir.capability-map.core", [resourcesKey], .extend, some origin⟩, capabilitiesFragment),
    (⟨"ir.artifacts.plan", [layoutKey, resourcesKey], .extend, some origin⟩, planFragment)]

/-- The core builders with their keys and priorities, in the order of registration. -/
def builders : List (BuilderEntry × BuilderBehaviour κ) :=
  [(⟨"builder.php.controllers", 20, some origin⟩, sourcesBuilder .phpController),
    (⟨"builder.ts.clients", 10, some origin⟩, sourcesBuilder .tsClient),
    (⟨"builder.manifest", 0, some origin⟩, manifestBuilder)]

/-- Register helpers, each on the surface of its kind. -/
def registerEach :
    List (Helper (FragmentBehaviour κ) (BuilderBehaviour κ)) → Act (Pipeline κ) Unit
  | [] => pure ()
  | h :: hs => do
    Pipeline.register h.kind h
    registerEach hs

/-- Register all core helpers. -/
def registerAll : Act (Pipeline κ) Unit :=
  registerEach (fragments.map (fun e => .fragment e.1 e.2) ++
    builders.map fun e => .builder e.1 e.2)

end StagedCodegen.Core

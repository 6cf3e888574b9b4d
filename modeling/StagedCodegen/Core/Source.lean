import StagedCodegen.Representation.Codec
import StagedCodegen.Text.SingleQuoted
import StagedCodegen.Text.Words

/-!
# Generated sources

The text of the controller and of the client of a resource, and the names of their files.
-/

namespace StagedCodegen.Core

open StagedCodegen.Representation

/-- The capability of whatever has none of its own. -/
def usualCapability : String := "manage_options"

/-- The file of a resource's controller. -/
def phpControllerFile (resource : String) : String :=
  "Rest/" ++ Text.pascalCase resource ++ "Controller.php"

/-- The file of a resource's client. -/
def tsClientFile (resource : String) : String := Text.camelCase resource ++ ".ts"

/-- The capability that guards a resource. -/
def resolvedCapability (d : Data) (r : Resource) : String :=
  match r.capability.bind fun key => d.capabilityMap.entries.get? key with
  | some e => e.capability
  | none => usualCapability

/-- A text between single quotes. -/
def phpQuote (s : String) : String := String.ofList (Text.SingleQuoted.quote s.toList)

/-- Lines, each ended. -/
def ofLines (ls : List String) : String := String.join (ls.map (· ++ "\n"))

/-- The line that says where a file comes from. -/
def banner (d : Data) : String :=
  "// Generated by genpipe " ++ d.identity.version ++ ". Do not edit."

/-- The controller of a resource. -/
def phpController (d : Data) (r : Resource) : String :=
  ofLines [
    "<?php",
    banner d,
    "declare(strict_types=1);",
    "",
    "namespace " ++ Text.pascalCase d.identity.slug ++ "\\Rest;",
    "",
    "final class " ++ Text.pascalCase r.name ++ "Controller",
    "\x7b",
    "    public const ROUTE = '" ++ phpQuote r.route ++ "';",
    "    public const CAPABILITY = '" ++ phpQuote (resolvedCapability d r) ++ "';",
    "",
    "    public function permission_check(): bool",
    "    \x7b",
    "        return current_user_can(self::CAPABILITY);",
    "    \x7d",
    "\x7d"]

/-- The client of a resource. -/
def tsClient (d : Data) (r : Resource) : String :=
  let route := Text.camelCase r.name ++ "Route"
  ofLines [
    banner d,
    "export const " ++ route ++ " = " ++ (Json.string r.route).print ++ ";",
    "",
    "export async function fetch" ++ Text.pascalCase r.name ++
      "(init?: RequestInit): Promise<Response> \x7b",
    "  return fetch(" ++ route ++ ", init);",
    "\x7d"]

end StagedCodegen.Core

import AssetQuery.Asset.Basic
import AssetQuery.Json.Decoder

/-!
# Platforms and command outputs in JSON
-/

namespace AssetQuery

/-- Reads a platform; what is not given is empty. -/
def Platform.decoder : Json.Decoder Platform := fun room doc => do
  let fields ← Json.Decoder.record ["name", "title", "arch", "release", "kind", "runtime",
    "family"] room doc
  let name ← fields.orElse "name" .text ""
  let title ← fields.orElse "title" .text ""
  let arch ← fields.orElse "arch" .text ""
  let release ← fields.orElse "release" .text ""
  let kind ← fields.orElse "kind" .text ""
  let runtime ← fields.orElse "runtime" .text ""
  let family ← fields.orElse "family" (.list .text) []
  return ⟨name, title, arch, release, kind, runtime, family⟩

def CommandOutput.decoder : Json.Decoder CommandOutput := fun room doc => do
  let fields ← Json.Decoder.record ["stdout", "stderr", "exit_status"] room doc
  let stdout ← fields.required "stdout" .text
  let stderr ← fields.required "stderr" .text
  let exitStatus ← fields.required "exit_status" .int32
  return ⟨stdout, stderr, exitStatus⟩

end AssetQuery

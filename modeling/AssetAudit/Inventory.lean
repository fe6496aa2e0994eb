import AssetAudit.Category
import AssetAudit.Path
import AssetAudit.SmallLetters

/-!
# Inventories

What a scan may ask about a project: whether a folder exists, which folders lie directly or anywhere
below a path, and which files of a category there are.  Paths are relative to the project and
written with `/`; every answer is complete and sorted by code points.

A scan depends on a project only through these four queries, so an `Inventory` is their answers.

Which files are assets is the same for all projects (`FileCategory.discovers`).  A file belongs to a
category by its extension: what stands behind the last dot of the bare name, in any mixture of
capital and small letters.  A name that only starts with a dot has no extension, and neither has a
name without any dot, so hidden files and sidecars such as `Hero.png.meta` are no assets.
-/

namespace AssetAudit

/-! ## Which files are assets -/

namespace FileCategory

/-- The extensions of the category, in small letters. -/
def extensions : FileCategory → List String
  | .scene => ["unity"]
  | .prefab => ["prefab"]
  | .script => ["cs", "dll"]
  | .texture => ["png", "jpg", "jpeg", "tga", "bmp", "psd", "tif", "tiff", "gif", "exr", "hdr"]
  | .model => ["fbx", "obj", "blend", "dae", "3ds", "max", "ma", "mb"]
  | .sound => ["wav", "mp3", "ogg", "aif", "aiff", "flac"]
  | .material => ["mat", "shader"]
  | .animation => ["anim", "controller"]

/-- The stem and the extension of a bare name, cut at its last dot; neither holds that dot, and the
stem is not empty. -/
def stemAndExtension? (name : List Char) : Option (List Char × List Char) :=
  let reversed := name.reverse
  match reversed.dropWhile (· != '.') with
  | [] => none
  | _ :: [] => none
  | _ :: stem => some (stem.reverse, (reversed.takeWhile (· != '.')).reverse)

/-- Is the file at the path an asset of the category? -/
def discovers (c : FileCategory) (path : String) : Bool :=
  match stemAndExtension? (Path.nameOf (Path.split path)).toList with
  | none => false
  | some (_, extension) => c.extensions.contains (lowercase (String.ofList extension))

end FileCategory

/-! ## Inventories -/

/-- The answers that a project gives to a scan. -/
structure Inventory where
  /-- Does the path lead to a folder? -/
  folderExists : String → Bool
  /-- The folders directly in a folder. -/
  subfolders : String → List String
  /-- The folders anywhere below a folder, without the folder itself. -/
  foldersBelow : String → List String
  /-- The files of a category below a folder, or in the whole project when no folder is given. -/
  assets : FileCategory → Option String → List String

end AssetAudit

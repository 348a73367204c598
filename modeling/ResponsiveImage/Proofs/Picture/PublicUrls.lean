import ResponsiveImage.Proofs.Options.Defaults
import ResponsiveImage.Proofs.Path.Resolving
import ResponsiveImage.Proofs.Sources

/-!
# The files that URLs lead to

The URL of a file leads to the path that stands behind its first slashes, below the public directory.
For everything that is made from an image this is the place where it is put, if it is so for the
output directory (`served_url_iff`).  That is the case for a relative output directory without
backslashes.  One from the root does not lie below the public directory but its URL does; and a
backslash is a slash in the URL only.
-/

namespace ResponsiveImage

open Text

/-- The path that a URL leads to. -/
def servedAt (publicDir : Path) (cwd : List String) (url : String) : Path :=
  (publicDir / Path.ofString (String.ofList (trimLeft '/' url.toList))).resolve cwd

namespace OutputPlan

variable {p : OutputPlan} {o : Options} {source : Path} {w : Workspace}
  {u d file : String}

theorem ofString_trimLeft (cs : List Char) :
    Path.ofString (String.ofList (trimLeft '/' cs)) = ⟨.relative, Path.partsOf cs⟩ := by
  rw [Path.ofString, String.toList_ofList, Path.partsOf_trimLeft,
    Path.anchorOf_eq_relative_iff.mpr (head?_trimLeft_ne '/' cs)]

theorem servedAt_eq (publicDir : Path) (cwd : List String) (url : String) :
    servedAt publicDir cwd url = .ofParts
      (Path.collapse (publicDir.resolve cwd).parts.reverse (Path.partsOf url.toList)) := by
  rw [servedAt, ofString_trimLeft, Path.resolve_join _ rfl]

theorem partsOf_urlOf (p : OutputPlan) (h : IsName file) :
    Path.partsOf (p.urlOf file).toList = Path.partsOf p.urlBase.toList ++ [file] := by
  rw [toList_urlOf h.no_slash, Path.partsOf_head_append (Url.isHead_headOf _) h, Path.partsOf_headOf]

/-- A file in a directory is served by the URL of the directory. -/
theorem servedAt_urlOf (p : OutputPlan) (publicDir : Path) (cwd : List String) (h : IsName file) :
    servedAt publicDir cwd (p.urlOf file) = (servedAt publicDir cwd p.urlBase).child file := by
  rw [servedAt_eq, servedAt_eq, partsOf_urlOf p h, Path.collapse_concat _ _ h.ne_dots]
  rfl

/-- **The URLs of all files that are made from an image lead to these files exactly if the URL of the
output directory leads to the output directory.  Without backslashes in the option, that is if it is
relative, or if it climbs above all of the public directory.** -/
theorem served_url_iff (hp : ((ofImage source o).run w).1 = .ok p) (hname : IsName source.name)
    (hu : o.publicDir = .string u) (hd : o.outputDir = .string d) :
    (servedAt (.ofString u) w.cwd p.url = p.path ↔
        servedAt (.ofString u) w.cwd p.urlBase = p.directory) ∧
      (∀ k, servedAt (.ofString u) w.cwd (p.sizedUrl k) = p.sizedPath k ↔
        servedAt (.ofString u) w.cwd p.urlBase = p.directory) ∧
      ('\\' ∉ d.toList → (servedAt (.ofString u) w.cwd p.urlBase = p.directory ↔
        (Path.ofString d).anchor = .relative ∨
          ((Path.ofString u).resolve w.cwd).parts.length ≤ Path.climbs (Path.ofString d).parts)) := by
  obtain ⟨-, rfl, ⟨output, houtput, hdirectory⟩, hbase, -⟩ := eq_of_run_ofImage (Prod.ext hp rfl)
  have houtput' : output = .ofString u / .ofString d := by
    rw [Options.outputPath, hu, hd] at houtput
    exact (Except.ok.inj houtput).symm
  have hbase' : p.urlBase.toList = trimRight '/' (Url.forwardSlashes d.toList) := by
    obtain ⟨d', hd', hbase'⟩ := Options.urlBase_eq_ok hbase
    rw [hd] at hd'
    cases hd'
    exact hbase'
  have hname' : IsName p.name := hname
  refine ⟨?_, fun k ↦ ?_, fun hd' ↦ ?_⟩
  · rw [url, servedAt_urlOf p _ _ hname', path_eq hname', Path.child_inj]
  · rw [sizedUrl, servedAt_urlOf p _ _ (isName_sizedName hname' k), sizedPath_eq hname',
      Path.child_inj]
  · have hparts : Path.partsOf p.urlBase.toList = (Path.ofString d).parts := by
      rw [hbase', Path.partsOf_trimRight, Url.forwardSlashes_eq_self_iff.mpr hd']
      rfl
    rw [servedAt_eq, hparts, hdirectory, houtput']
    by_cases hanchor : (Path.ofString d).anchor = .relative
    · rw [Path.resolve_join _ hanchor]
      simp [hanchor]
    · rw [Path.resolve_join_of_anchor _ hanchor, or_iff_right hanchor, Path.ofParts, Path.ofParts,
        Path.mk.injEq, and_iff_right rfl, Path.collapse_eq_collapse_nil_iff, List.length_reverse]

/-! ## An output directory from the root -/

def rootedOptions : Options := { Options.defaults with outputDir := .string "/g" }

/-- The plan for a picture with that output directory. -/
def rootedPlan : OutputPlan := ⟨.ofParts ["src", "x.png"], .ofParts ["g"], "/g", "webp"⟩

/-- What is made goes to a directory outside the public one, below which its URL leads. -/
theorem served_url_rooted :
    Options.ofMapping [("outputDir", .string "/g")] = .ok rootedOptions ∧
      ((ofImage (.ofParts ["src", "x.png"]) rootedOptions).run { cwd := [] }).1 = .ok rootedPlan ∧
      servedAt (.ofString "./static/") [] rootedPlan.url ≠ rootedPlan.path := by
  have hplan : ((ofImage (.ofParts ["src", "x.png"]) rootedOptions).run { cwd := [] }).1 =
      .ok rootedPlan := eq_ok_of_toOption (by decide +kernel)
  refine ⟨rfl, hplan, fun h ↦ ?_⟩
  obtain ⟨hurl, -, hdirectory⟩ := served_url_iff hplan (by decide) rfl rfl
  exact absurd ((hdirectory (by decide)).mp (hurl.mp h)) (by decide +kernel)

end OutputPlan

end ResponsiveImage

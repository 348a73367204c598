import ResponsiveImage.Options.Basic

/-!
# The default options

The options of which nothing is said are accepted as they are: every default passes its own check.
-/

namespace ResponsiveImage.Options

/-- The options of which nothing is said. -/
def defaults : Options where
  optimizeAll := .bool true
  imgTagExtensions := [.string "jpg", .string "jpeg", .string "png"]
  componentExtensions := []
  inlineBelow := .int 10000
  compressionLevel := .int 8
  quality := .int 70
  tagName := .string "Image"
  sizes := [.int 400, .int 800, .int 1200]
  breakpoints := [.int 375, .int 768, .int 1024]
  outputDir := .string "g/"
  publicDir := .string "./static/"
  sourceDir := .string "./src/"
  placeholder := .trace
  altFormat := .bool true
  altFormatOptions := .given {}
  traceOptions := .given {}
  optimizeRemote := .bool true
  remoteTimeout := .float (.ofDecimal false 15 0)
  downloadDir := .null
  placeholderWidth := .int 64

/-- No default is out of its range. -/
theorem ofDraft_defaultDraft : ofDraft defaultDraft = .ok defaults := by
  rfl

theorem ofMapping_nil : ofMapping [] = .ok defaults := ofDraft_defaultDraft

end ResponsiveImage.Options

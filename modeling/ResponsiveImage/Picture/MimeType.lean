import ResponsiveImage.Text.Case
import ResponsiveImage.Text.Split

/-!
# Media types by file name

The media type that the extension of a file name stands for. Some extensions are short for two, and
one that only tells how the file is packed is passed over.
-/

namespace ResponsiveImage.MimeType

open Text

/-- The types of extensions. Scripts and `webp` have those of a system's own table, which goes before or
beyond the common one there. -/
def types : List (String × String) :=
  [(".js", "text/javascript"), (".mjs", "text/javascript"), (".webp", "image/webp"),
    (".json", "application/json"), (".webmanifest", "application/manifest+json"),
    (".doc", "application/msword"), (".dot", "application/msword"), (".wiz", "application/msword"),
    (".nq", "application/n-quads"), (".nt", "application/n-triples"),
    (".bin", "application/octet-stream"), (".a", "application/octet-stream"),
    (".dll", "application/octet-stream"), (".exe", "application/octet-stream"),
    (".o", "application/octet-stream"), (".obj", "application/octet-stream"),
    (".so", "application/octet-stream"), (".oda", "application/oda"), (".pdf", "application/pdf"),
    (".p7c", "application/pkcs7-mime"), (".ps", "application/postscript"),
    (".ai", "application/postscript"), (".eps", "application/postscript"),
    (".trig", "application/trig"), (".m3u", "application/vnd.apple.mpegurl"),
    (".m3u8", "application/vnd.apple.mpegurl"), (".xls", "application/vnd.ms-excel"),
    (".xlb", "application/vnd.ms-excel"), (".ppt", "application/vnd.ms-powerpoint"),
    (".pot", "application/vnd.ms-powerpoint"), (".ppa", "application/vnd.ms-powerpoint"),
    (".pps", "application/vnd.ms-powerpoint"), (".pwz", "application/vnd.ms-powerpoint"),
    (".wasm", "application/wasm"), (".bcpio", "application/x-bcpio"),
    (".cpio", "application/x-cpio"), (".csh", "application/x-csh"), (".dvi", "application/x-dvi"),
    (".gtar", "application/x-gtar"), (".hdf", "application/x-hdf"), (".h5", "application/x-hdf5"),
    (".latex", "application/x-latex"), (".mif", "application/x-mif"),
    (".cdf", "application/x-netcdf"), (".nc", "application/x-netcdf"),
    (".p12", "application/x-pkcs12"), (".pfx", "application/x-pkcs12"),
    (".ram", "application/x-pn-realaudio"), (".pyc", "application/x-python-code"),
    (".pyo", "application/x-python-code"), (".sh", "application/x-sh"),
    (".shar", "application/x-shar"), (".swf", "application/x-shockwave-flash"),
    (".sv4cpio", "application/x-sv4cpio"), (".sv4crc", "application/x-sv4crc"),
    (".tar", "application/x-tar"), (".tcl", "application/x-tcl"), (".tex", "application/x-tex"),
    (".texi", "application/x-texinfo"), (".texinfo", "application/x-texinfo"),
    (".roff", "application/x-troff"), (".t", "application/x-troff"),
    (".tr", "application/x-troff"), (".man", "application/x-troff-man"),
    (".me", "application/x-troff-me"), (".ms", "application/x-troff-ms"),
    (".ustar", "application/x-ustar"), (".src", "application/x-wais-source"),
    (".xsl", "application/xml"), (".rdf", "application/xml"), (".wsdl", "application/xml"),
    (".xpdl", "application/xml"), (".zip", "application/zip"), (".3gp", "audio/3gpp"),
    (".3gpp", "audio/3gpp"), (".3g2", "audio/3gpp2"), (".3gpp2", "audio/3gpp2"),
    (".aac", "audio/aac"), (".adts", "audio/aac"), (".loas", "audio/aac"), (".ass", "audio/aac"),
    (".au", "audio/basic"), (".snd", "audio/basic"), (".mp3", "audio/mpeg"),
    (".mp2", "audio/mpeg"), (".opus", "audio/opus"), (".aif", "audio/x-aiff"),
    (".aifc", "audio/x-aiff"), (".aiff", "audio/x-aiff"), (".ra", "audio/x-pn-realaudio"),
    (".wav", "audio/x-wav"), (".avif", "image/avif"), (".bmp", "image/bmp"), (".gif", "image/gif"),
    (".ief", "image/ief"), (".jpg", "image/jpeg"), (".jpe", "image/jpeg"), (".jpeg", "image/jpeg"),
    (".heic", "image/heic"), (".heif", "image/heif"), (".png", "image/png"),
    (".svg", "image/svg+xml"), (".tiff", "image/tiff"), (".tif", "image/tiff"),
    (".ico", "image/vnd.microsoft.icon"), (".ras", "image/x-cmu-raster"),
    (".pnm", "image/x-portable-anymap"), (".pbm", "image/x-portable-bitmap"),
    (".pgm", "image/x-portable-graymap"), (".ppm", "image/x-portable-pixmap"),
    (".rgb", "image/x-rgb"), (".xbm", "image/x-xbitmap"), (".xpm", "image/x-xpixmap"),
    (".xwd", "image/x-xwindowdump"), (".eml", "message/rfc822"), (".mht", "message/rfc822"),
    (".mhtml", "message/rfc822"), (".nws", "message/rfc822"), (".css", "text/css"),
    (".csv", "text/csv"), (".html", "text/html"), (".htm", "text/html"), (".n3", "text/n3"),
    (".txt", "text/plain"), (".bat", "text/plain"), (".c", "text/plain"), (".h", "text/plain"),
    (".ksh", "text/plain"), (".pl", "text/plain"), (".srt", "text/plain"),
    (".rtx", "text/richtext"), (".tsv", "text/tab-separated-values"), (".vtt", "text/vtt"),
    (".py", "text/x-python"), (".etx", "text/x-setext"), (".sgm", "text/x-sgml"),
    (".sgml", "text/x-sgml"), (".vcf", "text/x-vcard"), (".xml", "text/xml"),
    (".mp4", "video/mp4"), (".mpeg", "video/mpeg"), (".m1v", "video/mpeg"), (".mpa", "video/mpeg"),
    (".mpe", "video/mpeg"), (".mpg", "video/mpeg"), (".mov", "video/quicktime"),
    (".qt", "video/quicktime"), (".webm", "video/webm"), (".avi", "video/x-msvideo"),
    (".movie", "video/x-sgi-movie")]

/-- The extensions that are short for two. -/
def doubled : List (String × String) :=
  [(".svgz", ".svg.gz"), (".tgz", ".tar.gz"), (".taz", ".tar.gz"), (".tz", ".tar.gz"),
    (".tbz2", ".tar.bz2"), (".txz", ".tar.xz")]

/-- The extensions that tell how a file is packed. -/
def packings : List String := [".gz", ".Z", ".bz2", ".xz", ".br"]

/-- A name and its extension, which begins at the last dot; dots at the start of the name begin
none. -/
def splitExtension (name : List Char) : List Char × List Char :=
  match splitLast '.' name with
  | some (stem, extension) =>
    if stem.all (· == '.') then (name, []) else (stem, '.' :: extension)
  | none => (name, [])

/-- A name without the scheme before its first colon. -/
def withoutScheme (name : List Char) : List Char :=
  let scheme := name.takeWhile fun c ↦ c != ':' && c != '/'
  match name.drop scheme.length with
  | ':' :: rest => if scheme.isEmpty then name else rest
  | _ => name

/-- A name and its extension, with an extension that is short for two written out. -/
def expand (name : List Char) : List Char × List Char :=
  let (stem, extension) := splitExtension name
  match doubled.lookup (String.ofList extension) with
  | some full => splitExtension (stem ++ full.toList)
  | none => (stem, extension)

/-- The media type of a file name, if its extension has one. -/
def ofName? (name : String) : Option String :=
  let (stem, extension) := expand (withoutScheme name.toList)
  let extension :=
    if packings.contains (String.ofList extension) then (splitExtension stem).2 else extension
  match types.lookup (String.ofList extension) with
  | some t => some t
  | none => types.lookup (String.ofList (lowerChars extension))

end ResponsiveImage.MimeType

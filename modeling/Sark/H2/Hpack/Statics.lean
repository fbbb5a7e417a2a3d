import Sark.Http.Compress.Table

/-!
# The static table of HPACK

The 61 fields that both sides of a connection know (`h2/src/hpack/statics.rs`), indexed from one.
-/

namespace Sark.Hpack.Statics

/-- The bytes of a byte string literal. -/
def bytes (text : String) : Bytes :=
  text.toList.map fun char => UInt8.ofNat char.toNat

/-- `ENTRIES`. -/
def entries : List (String × String) :=
  [(":authority", ""), (":method", "GET"), (":method", "POST"), (":path", "/"),
   (":path", "/index.html"), (":scheme", "http"), (":scheme", "https"), (":status", "200"),
   (":status", "204"), (":status", "206"), (":status", "304"), (":status", "400"),
   (":status", "404"), (":status", "500"), ("accept-charset", ""),
   ("accept-encoding", "gzip, deflate"), ("accept-language", ""), ("accept-ranges", ""),
   ("accept", ""), ("access-control-allow-origin", ""), ("age", ""), ("allow", ""),
   ("authorization", ""), ("cache-control", ""), ("content-disposition", ""),
   ("content-encoding", ""), ("content-language", ""), ("content-length", ""),
   ("content-location", ""), ("content-range", ""), ("content-type", ""), ("cookie", ""),
   ("date", ""), ("etag", ""), ("expect", ""), ("expires", ""), ("from", ""), ("host", ""),
   ("if-match", ""), ("if-modified-since", ""), ("if-none-match", ""), ("if-range", ""),
   ("if-unmodified-since", ""), ("last-modified", ""), ("link", ""), ("location", ""),
   ("max-forwards", ""), ("proxy-authenticate", ""), ("proxy-authorization", ""), ("range", ""),
   ("referer", ""), ("refresh", ""), ("retry-after", ""), ("server", ""), ("set-cookie", ""),
   ("strict-transport-security", ""), ("transfer-encoding", ""), ("user-agent", ""),
   ("vary", ""), ("via", ""), ("www-authenticate", "")]

/-- The entries as bytes. -/
def table : List Compress.Entry :=
  entries.map fun entry => ⟨bytes entry.1, bytes entry.2⟩

/-- `Table::len`. -/
def len : ℕ :=
  61

/-- `Table::get`. -/
def get (index : ℕ) : Option Compress.Entry :=
  if index = 0 then none else table[index - 1]?

/-- The ranges of `Table::lookup`: the names with the entries that have them. -/
def spans : List (String × ℕ × ℕ) :=
  [(":authority", 0, 1), (":method", 1, 3), (":path", 3, 5), (":scheme", 5, 7),
   (":status", 7, 14), ("accept-charset", 14, 15), ("accept-encoding", 15, 16),
   ("accept-language", 16, 17), ("accept-ranges", 17, 18), ("accept", 18, 19),
   ("access-control-allow-origin", 19, 20), ("age", 20, 21), ("allow", 21, 22),
   ("authorization", 22, 23), ("cache-control", 23, 24), ("content-disposition", 24, 25),
   ("content-encoding", 25, 26), ("content-language", 26, 27), ("content-length", 27, 28),
   ("content-location", 28, 29), ("content-range", 29, 30), ("content-type", 30, 31),
   ("cookie", 31, 32), ("date", 32, 33), ("etag", 33, 34), ("expect", 34, 35),
   ("expires", 35, 36), ("from", 36, 37), ("host", 37, 38), ("if-match", 38, 39),
   ("if-modified-since", 39, 40), ("if-none-match", 40, 41), ("if-range", 41, 42),
   ("if-unmodified-since", 42, 43), ("last-modified", 43, 44), ("link", 44, 45),
   ("location", 45, 46), ("max-forwards", 46, 47), ("proxy-authenticate", 47, 48),
   ("proxy-authorization", 48, 49), ("range", 49, 50), ("referer", 50, 51), ("refresh", 51, 52),
   ("retry-after", 52, 53), ("server", 53, 54), ("set-cookie", 54, 55),
   ("strict-transport-security", 55, 56), ("transfer-encoding", 56, 57), ("user-agent", 57, 58),
   ("vary", 58, 59), ("via", 59, 60), ("www-authenticate", 60, 61)]

/-- `record::Match`: the entry equal to a field, if there is one, and one with its name. -/
structure Match where
  exact : Option ℕ
  name : ℕ
  deriving DecidableEq, Repr

/-- `Table::lookup`. -/
def lookup (name value : Bytes) : Option Match :=
  (spans.find? fun span => bytes span.1 == name).map fun (_, start, stop) =>
    let found := ((table.take stop).drop start).findIdx? fun entry => entry.value == value
    ⟨found.map fun offset => start + offset + 1, start + 1⟩

theorem length_name_of_mem {entry : Compress.Entry} (h : entry ∈ table) :
    entry.name.length ≤ 27 := by
  have hall : table.all fun entry => entry.name.length ≤ 27 := by decide +kernel
  simpa using List.all_eq_true.mp hall entry h

end Sark.Hpack.Statics

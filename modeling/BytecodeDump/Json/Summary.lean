-- Summaries as JSON.
import BytecodeDump.Json.Value
import BytecodeDump.Summary

namespace BytecodeDump

open Json

namespace Summary

def toJson (s : Summary) : Value :=
  .record [("version", .nat s.version.toNat), ("flags", .nat s.flags.toNat),
    ("chunk_name", .text s.chunkName), ("stripped", .bool s.stripped),
    ("prototypes", .nat s.prototypes), ("max_depth", .nat s.maxDepth),
    ("instructions", .nat s.instructions), ("constants", .nat s.constants),
    ("numbers", .nat s.numbers), ("upvalues", .nat s.upvalues),
    ("strings", .nat s.strings), ("tables", .nat s.tables)]

end Summary

end BytecodeDump

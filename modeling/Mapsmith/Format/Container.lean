import Mapsmith.Format.Fields
import Mapsmith.Schema.Decode

/-!
# The map file

A map is an archive behind a header of 512 bytes. A signed map ends in a footer
with its signature, which is read by itself, for the archive reaches up to the end
of the file.
-/

namespace Mapsmith.Container

open Fields

def magic : Bytes := [0x48, 0x4D, 0x33, 0x57]

def schema : Schema where
  name := "MapFile"
  fields :=
    [("header", .padded 512 (.record "MapHeader"
        [("file_id", .magic magic),
          ("placeholder", integer),
          ("name", .text),
          ("flags", mapFlags),
          ("players_count", integer)])),
      ("mpq", .bytes .remaining)]

def footerMagic : Bytes := [0x4E, 0x47, 0x49, 0x53]

def footerSchema : Schema where
  name := "MapFooter"
  fields := [("sign_id", .magic footerMagic), ("authentication", .bytes (.fixed 256))]

def footerSize : Nat := footerMagic.length + 256

def decodeFooter (bytes : Bytes) : Except CodecError (Option Document) :=
  let size := bytes.length
  if size < footerSize then return none
  else
    let tail := bytes.drop (size - footerSize)
    if tail.take footerMagic.length = footerMagic then return some (← footerSchema.decode {} tail)
    else return none

end Mapsmith.Container

import FleetControl.Digest.Sha256
import FleetControl.SortedMap

/-!
# Container specifications

What to run: an image, a command, an environment and ports. The fingerprint of a specification is
the SHA-256 digest of its encoding; instances with one fingerprint are interchangeable.
-/

namespace FleetControl

/-- What the container engine is asked to run. -/
structure ContainerSpec where
  /-- The image to start. -/
  image : String
  /-- The command line, if not the image's own. -/
  command : List String := []
  /-- Environment variables. -/
  env : SortedMap String String := .empty
  /-- Published ports. -/
  ports : List UInt16 := []
deriving DecidableEq, Inhabited

namespace ContainerSpec

/-- The UTF-8 bytes of a text. -/
def utf8 (s : String) : List UInt8 := s.toList.flatMap String.utf8EncodeChar

/-- The bytes of a port number, most significant first. -/
def portBytes (port : UInt16) : List UInt8 := [(port >>> 8).toUInt8, port.toUInt8]

/-- The bytes that identify a specification: its parts in order, each under its title, with a
zero byte after every argument and every variable. -/
def encoding (spec : ContainerSpec) : List UInt8 :=
  utf8 "image" ++ [0] ++ utf8 spec.image ++
  ([0] ++ utf8 "command" ++ [0]) ++ spec.command.flatMap (fun arg => utf8 arg ++ [0]) ++
  ([0] ++ utf8 "env" ++ [0]) ++
    spec.env.toList.flatMap (fun (key, value) => utf8 key ++ utf8 "=" ++ utf8 value ++ [0]) ++
  ([0] ++ utf8 "ports" ++ [0]) ++ spec.ports.flatMap portBytes

/-- The identity of a specification, in hexadecimal. -/
def fingerprint (spec : ContainerSpec) : String := Digest.hex (Digest.Sha256.hash spec.encoding)

end ContainerSpec

end FleetControl

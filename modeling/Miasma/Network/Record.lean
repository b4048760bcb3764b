import Miasma.Dissolution.Share

namespace Miasma.Network

open Data Dissolution

/-! The record of a content item in the hash table (`network/types.rs`). -/

def maxSegments : Nat := 65536
def maxRecordLocations : Nat := 1048576
def maxLocationAddrs : Nat := 32
def maxLocationAddrLen : Nat := 512
def maxPeerIdBytes : Nat := 128

structure ShardLocation where
  peerIdBytes : Bytes
  shardIndex : UInt16
  segmentIndex : UInt32
  addrs : List String
deriving DecidableEq

structure DhtRecord where
  midDigest : B32
  dataShards : UInt8
  totalShards : UInt8
  version : UInt8
  locations : List ShardLocation
  publishedAt : UInt64
deriving DecidableEq

def badRecord (reason : String) : Except MiasmaError Unit := .error (.invalidManifest ("invalid record: " ++ reason))

def ShardLocation.validate (location : ShardLocation) (total : Nat) : Except MiasmaError Unit :=
  if maxSegments ≤ location.segmentIndex.toNat then
    badRecord s!"segment index {location.segmentIndex} is not below the limit {maxSegments}"
  else if total ≤ location.shardIndex.toNat then
    badRecord s!"shard index {location.shardIndex} is not below n={total}"
  else if maxPeerIdBytes < location.peerIdBytes.length ∨ maxLocationAddrs < location.addrs.length ∨
      location.addrs.any (maxLocationAddrLen < ·.utf8ByteSize) then
    badRecord "oversized location entry"
  else .ok ()

def validateLocations (total : Nat) : List ShardLocation → Except MiasmaError Unit
  | [] => .ok ()
  | location :: rest => do
    location.validate total
    validateLocations total rest

namespace DhtRecord

def validate (record : DhtRecord) : Except MiasmaError Unit :=
  let (k, n) := (record.dataShards.toNat, record.totalShards.toNat)
  if k = 0 ∨ n < k then badRecord s!"invalid shard counts k={k}, n={n}"
  else
    let most := min maxRecordLocations (maxSegments * n)
    if most < record.locations.length then
      let count := record.locations.length
      badRecord s!"{count} locations, limit {most}"
    else validateLocations n record.locations

def maxSegment (record : DhtRecord) : UInt32 := (record.locations.map ShardLocation.segmentIndex).foldl max 0

end DhtRecord

end Miasma.Network

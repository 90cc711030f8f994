import Fssn.P2p.Dechat

/-!
# Fssn.P2p.Discovery — the search finds the name server's address

`main` cuts the last part off its own address, `search_nameserver` appends the numbers below 255 to
what is left and connects to these endpoints, `beacon_nameserver` binds the endpoint of its address
and publishes the address.  `discovery`: in one subnet the search meets the beacon, and what it returns
is the server's address.  The parts of the addresses are any texts here, as both programs see them.
-/

namespace Fssn.P2p

open Fssn.Lib

/-- The first three parts of an address. -/
structure Subnet where
  a : Part
  b : Part
  c : Part

def Subnet.mask (net : Subnet) : Bytes :=
  net.a.bytes ++ dot ++ net.b.bytes ++ dot ++ net.c.bytes ++ dot

/-- The address with the last part `host`. -/
def Subnet.address (net : Subnet) (host : Part) : Bytes := net.mask ++ host.bytes

section Subnet

variable (net : Subnet)

theorem ipMask_address (host : Part) : ipMask (net.address host) = some net.mask :=
  ipMask_parts net.a net.b net.c host

theorem address_ne_nil (host : Part) : net.address host ≠ [] :=
  List.append_ne_nil_of_right_ne_nil _ host.ne_nil

theorem colon_not_mem_address (host : Part) : (58 : UInt8) ∉ net.address host := by
  have hdot : (58 : UInt8) ∉ dot := by decide
  simp [Subnet.address, Subnet.mask, hdot, net.a.colon_free, net.b.colon_free, net.c.colon_free,
    host.colon_free]

theorem nul_not_mem_address (host : Part) : (0 : UInt8) ∉ net.address host := by
  have hdot : (0 : UInt8) ∉ dot := by decide
  simp [Subnet.address, Subnet.mask, hdot, net.a.nul_free, net.b.nul_free, net.c.nul_free,
    host.nul_free]

/-- The search connects to the endpoint of every host whose number is below 255. -/
theorem bindEndpoint_mem {n : ℕ} (hn : n ≤ 254) :
    bindEndpoint (net.address (.ofNat n)) ∈ searchEndpoints net.mask :=
  List.mem_map.mpr ⟨n, List.mem_range.mpr (by omega), rfl⟩

theorem searchResult_address (host : Part) :
    searchResult (beaconMessage (net.address host)) = some (net.address host) :=
  searchResult_of_colon_free (address_ne_nil net host) (colon_not_mem_address net host)
    (nul_not_mem_address net host)

/-- **Discovery.**  A node with the last part `host` connects to the endpoint that the name server
with the number `n` binds; the server's beacon passes the subscription, and the search that receives it
returns the server's address, which is not empty. -/
theorem discovery (host : Part) (n : ℕ) (hn : n ≤ 254) :
    (∃ ip_mask, ipMask (net.address host) = some ip_mask ∧
      bindEndpoint (net.address (.ofNat n)) ∈ searchEndpoints ip_mask) ∧
    subscription <+: beaconMessage (net.address (.ofNat n)) ∧
    searchResult (beaconMessage (net.address (.ofNat n))) = some (net.address (.ofNat n)) ∧
    net.address (.ofNat n) ≠ [] :=
  ⟨⟨net.mask, ipMask_address net host, bindEndpoint_mem net hn⟩,
    subscription_prefix _, searchResult_address net _, address_ne_nil net _⟩

end Subnet

/-- The server on 192.168.0.17, found from 192.168.0.5. -/
theorem discovery_lan :
    let net : Subnet := ⟨.ofNat 192, .ofNat 168, .ofNat 0⟩
    (∃ ip_mask, ipMask (net.address (.ofNat 5)) = some ip_mask ∧
      bindEndpoint (net.address (.ofNat 17)) ∈ searchEndpoints ip_mask) ∧
    subscription <+: beaconMessage (net.address (.ofNat 17)) ∧
    searchResult (beaconMessage (net.address (.ofNat 17))) = some (net.address (.ofNat 17)) ∧
    net.address (.ofNat 17) ≠ [] :=
  discovery ⟨.ofNat 192, .ofNat 168, .ofNat 0⟩ (.ofNat 5) 17 (by decide)

end Fssn.P2p

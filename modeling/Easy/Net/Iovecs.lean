import Easy.Lib.Extents
import Easy.Net.Representation

/-!
The `iovec`s that `Buffer` hands out, and data that is stored through them.

The loop that builds them tiles a range of the chain with the pieces of its nodes.
What a reader of the `iovec`s sees, and what a `readv` into them changes, is then what
gathering and scattering of a tiling are.
-/

namespace Easy.Net

open Lib

namespace Iovec

/-- The logical offset of the first byte. -/
def offset (b : Buffer) (v : Iovec) : ℕ := b.baseSize * v.node + v.off

/-- The bytes an `iovec` points to. -/
def bytes (b : Buffer) (v : Iovec) : List UInt8 :=
  ((b.chain[v.node]?.elim [] Node.ptr).drop v.off).take v.len

/-- The `iovec` lies inside its node. -/
def Inside (b : Buffer) (v : Iovec) : Prop :=
  ∃ n, b.chain[v.node]? = some n ∧ v.off + v.len ≤ n.size

def Disjoint (u v : Iovec) : Prop := u.node ≠ v.node ∨ u.off + u.len ≤ v.off ∨ v.off + v.len ≤ u.off

def extent (v : Iovec) : Extent := ⟨v.node, v.off, v.len⟩

end Iovec

namespace Buffer

variable {b : Buffer}

/-- The `iovec`s are pieces of nodes, have no byte in common, and cover the logical
offsets from `p` to `q` in order. -/
structure Covers (b : Buffer) (iovs : List Iovec) (p q : ℕ) : Prop where
  inside : ∀ v ∈ iovs, v.Inside b
  disjoint : iovs.Pairwise Iovec.Disjoint
  offsets : (iovs.flatMap fun v => List.range' (v.offset b) v.len) = List.range' p (q - p)

/-- Bytes stored through `iovec`s in order, as `readv` stores them. -/
def fill : List Iovec → List UInt8 → Call Unit
  | [], _ => return
  | v :: iovs, d => do
    memcpy v.node v.off (d.take v.len)
    fill iovs (d.drop v.len)

/-! ### The loop that builds them -/

theorem iovecLoop_tiles {k : ℕ} {ns : List Node} (hk : 0 < k) (hns : ∀ n ∈ ns, n.size = k)
    (cur npos len : ℕ) (hnpos : npos < k) (hlen : 0 < len) (hle : npos + len ≤ k * ns.length) :
    ∃ iovs, iovecLoop ns cur npos len = .ok iovs ∧
      Extent.Tiles k (k * cur + npos) (iovs.map Iovec.extent) (k * cur + npos + len) := by
  induction ns generalizing cur npos len with
  | nil => simp at hle; omega
  | cons n rest ih =>
      have hn : n.size = k := hns n (by simp)
      have hrest : ∀ m ∈ rest, m.size = k := fun m hm => hns m (by simp [hm])
      simp only [List.length_cons, Nat.mul_succ] at hle
      rw [iovecLoop, hn]
      split
      case isTrue hfit =>
        refine ⟨_, rfl, .cons rfl hlen ?_ .nil⟩
        change npos + len ≤ k
        omega
      case isFalse hfit =>
        obtain ⟨iovs, h, ht⟩ := ih hrest (cur + 1) 0 (len - (k - npos)) hk (by omega) (by omega)
        refine ⟨⟨cur, npos, k - npos⟩ :: iovs, by rw [h], ?_⟩
        refine .cons (e := ⟨cur, npos, k - npos⟩) rfl ?_ ?_ ?_
        · change 0 < k - npos
          omega
        · change npos + (k - npos) ≤ k
          omega
        · change Extent.Tiles k (k * cur + npos + (k - npos)) _ _
          rw [Nat.mul_succ] at ht
          rw [show k * cur + npos + (k - npos) = k * cur + k + 0 by omega,
            show k * cur + npos + len = k * cur + k + 0 + (len - (k - npos)) by omega]
          exact ht

/-! ### What a tiling of the chain covers -/

section Tiled

variable {iovs : List Iovec} {p q : ℕ}
  (ht : Extent.Tiles b.baseSize p (iovs.map Iovec.extent) q)
include ht

theorem Wf.tiled_inside (h : b.Wf) (hq : q ≤ b.capacity) :
    ∀ v ∈ iovs, v.node < b.chain.length ∧ v.off + v.len ≤ b.baseSize := by
  intro v hv
  have hchain : q ≤ b.baseSize * b.chain.length := by rwa [← h.capacity_eq]
  have hin := ht.inside hchain v.extent (List.mem_map_of_mem hv)
  exact ⟨hin.1, hin.2.1⟩

theorem Wf.covers (h : b.Wf) (hq : q ≤ b.capacity) : b.Covers iovs p q where
  inside := by
    intro v hv
    obtain ⟨hnode, hfit⟩ := h.tiled_inside ht hq v hv
    refine ⟨_, List.getElem?_eq_getElem hnode, ?_⟩
    rw [h.node_size _ (List.getElem_mem hnode)]
    exact hfit
  disjoint := by
    refine (List.pairwise_map.mp ht.pairwise).imp fun {u v} huv => ?_
    by_cases hnode : u.node = v.node
    · have huv : b.baseSize * u.node + u.off + u.len ≤ b.baseSize * v.node + v.off := huv
      rw [hnode] at huv
      exact .inr (.inl (by omega))
    · exact .inl hnode
  offsets := by
    rw [← ht.positions, List.flatMap_map]
    rfl

/-- The bytes of a tiling are the range of the chain it covers. -/
theorem Wf.bytes_tiled (h : b.Wf) (hq : q ≤ b.capacity) :
    iovs.flatMap (Iovec.bytes b) = (b.bytes.drop p).take (q - p) := by
  have hgather := ht.gather_eq h.chain_length (by rwa [List.length_map, ← h.capacity_eq])
  rw [Extent.gather, List.flatMap_map] at hgather
  rw [bytes, ← hgather]
  refine congrArg (iovs.flatMap ·) (funext fun v => ?_)
  rw [Iovec.bytes, Extent.get, Iovec.extent, List.getElem?_map]
  cases b.chain[v.node]? <;> rfl

end Tiled

/-! ### Storing through them -/

/-- A store into pieces of nodes changes the bytes of these pieces only. -/
theorem fill_scatter (h : b.Wf) {iovs : List Iovec} {d : List UInt8}
    (hin : ∀ v ∈ iovs, v.node < b.chain.length ∧ v.off + v.len ≤ b.baseSize) :
    ∃ chain, fill iovs d b = .ok () { b with chain := chain } ∧ { b with chain := chain }.Wf ∧
      chain.map Node.ptr = Extent.scatter (b.chain.map Node.ptr) (iovs.map Iovec.extent) d := by
  induction iovs generalizing b d with
  | nil => exact ⟨b.chain, rfl, h, rfl⟩
  | cons v iovs ih =>
      obtain ⟨hnode, hfit⟩ := hin v (by simp)
      have hsize := h.node_size _ (List.getElem_mem hnode)
      have htake : v.off + (d.take v.len).length ≤ b.chain[v.node].size := by
        rw [List.length_take]
        omega
      have hstore := memcpy_apply (List.getElem?_eq_getElem hnode) htake
      have hwf := h.setNode (n := b.chain[v.node].store v.off (d.take v.len) htake) v.node hsize
      obtain ⟨chain, hfill, hwf', hchain⟩ := ih hwf (d := d.drop v.len) (by
        intro u hu
        simpa [setNode] using hin u (by simp [hu]))
      refine ⟨chain, ?_, hwf', ?_⟩
      · simp only [fill, Call.bind_apply, hstore, hfill]
        rfl
      · rw [hchain, setNode, List.map_set, List.map_cons, Extent.scatter]
        congr 1
        rw [List.modify_eq_set_getElem?, Iovec.extent, List.getElem?_map,
          List.getElem?_eq_getElem hnode]
        rfl

/-- **Storing** through a tiling overwrites the range it covers. -/
theorem Wf.fill_eq (h : b.Wf) {iovs : List Iovec} {p q : ℕ}
    (ht : Extent.Tiles b.baseSize p (iovs.map Iovec.extent) q) (hq : q ≤ b.capacity)
    {d : List UInt8} (hd : d.length ≤ q - p) :
    ∃ chain, fill iovs d b = .ok () { b with chain := chain } ∧ { b with chain := chain }.Wf ∧
      { b with chain := chain }.bytes = overwrite b.bytes p d := by
  obtain ⟨chain, hfill, hwf, hchain⟩ := fill_scatter h (d := d) (h.tiled_inside ht hq)
  refine ⟨chain, hfill, hwf, ?_⟩
  rw [bytes, bytes, hchain]
  exact (ht.scatter_eq h.chain_length (by rwa [List.length_map, ← h.capacity_eq]) hd).1

end Buffer

end Easy.Net

import Miku.Net.Dns

namespace Miku.Net.Dns
open Lib.Exchange
open Net.Tls (byte piece be16At)

theorem firstAddress_eq : firstAddress buf n pos =
    ((recordsFrom buf n pos).find? fun r => r.rtype = 1 && r.rdlen = 4).map (·.address buf) := by
  induction n generalizing pos with
  | zero => rfl
  | succ n ih =>
    rw [firstAddress,recordsFrom]
    cases afterName buf pos with
    | none => rfl
    | some p =>
      simp only [Option.bind_eq_bind,Option.bind_some]
      by_cases hlen : buf.length < p + 10 + be16At buf (p + 8)
      · rw [if_pos hlen,if_pos hlen]
        split <;> rfl
      · rw [if_neg hlen,if_neg hlen,if_neg (by omega),List.find?_cons]
        by_cases hr : be16At buf p = 1 ∧ be16At buf (p + 8) = 4
        · simp only [hr,and_self,↓reduceIte,decide_true,Bool.and_self]
          rfl
        · rw [if_neg hr,ih]
          simp only [← Bool.decide_and,decide_eq_false hr]

theorem parseResponse_eq : parseResponse buf =
    if isResponse buf then (firstA buf).map (·.address buf) else none := by
  have hr : isResponse buf = true ↔
      12 ≤ buf.length ∧ be16At buf 2 / 0x8000 % 2 = 1 ∧ be16At buf 2 % 16 = 0 := by
    simp [isResponse,and_assoc]
  simp only [parseResponse,hr]
  by_cases h : 12 ≤ buf.length ∧ be16At buf 2 / 0x8000 % 2 = 1 ∧ be16At buf 2 % 16 = 0
  · rw [if_neg (by omega),if_neg (by omega),if_neg (by omega),if_pos h,firstA,answers]
    cases skipQuestions buf (be16At buf 4) 12 with
    | none => split <;> rfl
    | some pos =>
      split
      · rename_i h0
        simp only [h0]
        rfl
      · exact firstAddress_eq
  · rw [if_neg h]
    split_ifs <;> first | rfl | omega

/-- The address belongs to the query: it is in an A record of class IN for the queried
name, itself or by the CNAME records of the message, in an answer of the queried server
with the identifier and the question of the query. -/
structure Bound (server : Ip) (hostname query : List UInt8) (d : UdpDgram) (addr : Ip) : Prop
    extends Answers server query d where
  record : ∃ r ∈ answers d.data, r.rtype = 1 ∧ r.rdlen = 4 ∧ addr = r.address d.data ∧
    r.For d.data hostname

/-- What settles the query is an answer of the server to it, and its first address is that of an A
record for the queried name. -/
def Honest (server : Ip) (hostname query : List UInt8) (d : UdpDgram) (first : Record) : Prop :=
  Answers server query d ∧ ∃ r ∈ answers d.data, r.rtype = 1 ∧ r.rdlen = 4 ∧
    first.address d.data = r.address d.data ∧ r.For d.data hostname

def sampleServer : Ip := [9,9,9,9]

def sampleHost : List UInt8 := [97]

def sampleQuery : List UInt8 := queryHeader ++ [1,97,0,0,1,0,1]

/-- `a` is an alias of `b`, and `b` has the address 1.2.3.4. -/
def aliased : UdpDgram where
  srcIp := sampleServer
  srcPort := 53
  data := [0x13,0x37,0x81,0x80,0,1,0,2,0,0,0,0,1,97,0,0,1,0,1,
    0xC0,12,0,5,0,1,0,0,0,60,0,3,1,98,0,
    1,98,0,0,1,0,1,0,0,0,60,0,4,1,2,3,4]

theorem answers_aliased : answers aliased.data = [⟨19,5,1,31,3⟩,⟨34,1,1,47,4⟩] := by
  decide +kernel

theorem aliased_honest : Honest sampleServer sampleHost sampleQuery aliased ⟨34,1,1,47,4⟩ := by
  have hcname : Alias aliased.data (queried sampleHost) [[98]] :=
    .cname .self (r := ⟨19,5,1,31,3⟩) (by rw [answers_aliased]; exact List.mem_cons_self) rfl rfl
      (by decide +kernel) (by decide +kernel)
  refine ⟨⟨⟨rfl,rfl⟩,by decide +kernel,by decide +kernel⟩,⟨34,1,1,47,4⟩,?_,rfl,rfl,rfl,rfl,[[98]],
    by decide +kernel,hcname⟩
  rw [answers_aliased]
  simp

/-- Anyone sends the address of another name, without the identifier and the question. -/
def spoofed : UdpDgram where
  srcIp := [6,6,6,6]
  srcPort := 53
  data := [0,0,0x80,0,0,0,0,1,0,0,0,0,1,122,0,0,1,0,1,0,0,0,0,0,4,6,6,6,6]

end Miku.Net.Dns

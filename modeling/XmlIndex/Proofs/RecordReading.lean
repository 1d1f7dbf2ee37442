import XmlIndex.Collection.Record
import XmlIndex.Proofs.WireReading

/-! # Records are read back

A record is read back from the bytes it is written as (`Record.ReadsBack`) if its lengths fit into
their words and the time it was made at is read back from its written form
(`Record.readsBack`). -/

namespace XmlIndex

namespace Record

variable {r : Record}

/-- What is written of the record is read as the record. -/
def ReadsBack (r : Record) : Prop := decode r.encode = .ok r

theorem takes_timestamp (hlength : (Bytes.ofText r.created.toText).length < Bytes.bound 8)
    (h : Timestamp.parse r.created.toText = some r.created) :
    Wire.Takes timestamp r.created (Wire.putText r.created.toText) := by
  rw [← List.append_nil (Wire.putText _)]
  exact (Wire.takes_text hlength).bind (Wire.takes_lift h)

/-- A record whose lengths fit into their words is read back, if its time is. -/
theorem readsBack (hcreated : Timestamp.parse r.created.toText = some r.created)
    (htexts : ∀ s ∈ r.name :: r.created.toText :: (r.documents ++ r.subcollections),
      (Bytes.ofText s).length < Bytes.bound 8)
    (hdocuments : r.documents.length < Bytes.bound 8)
    (hsubcollections : r.subcollections.length < Bytes.bound 8) : r.ReadsBack := by
  have hid : r.id.toNat < Bytes.bound 2 := r.id.toNat_lt
  -- Field by field, in the order in which they are written.
  have htakes : Wire.Takes read r r.encode := by
    rw [← List.append_nil r.encode, encode]
    simp only [List.append_assoc]
    refine (Wire.takes_word hid).bind ?_
    refine (Wire.takes_text (htexts _ (by simp))).bind ?_
    refine (takes_timestamp (htexts _ (by simp)) hcreated).bind ?_
    refine (Wire.takes_list hdocuments fun s hs =>
      Wire.takes_text (htexts s (by simp [hs]))).bind ?_
    refine (Wire.takes_list hsubcollections fun s hs =>
      Wire.takes_text (htexts s (by simp [hs]))).bind ?_
    rw [UInt16.ofNat_toNat]
    exact Wire.takes_pure r
  -- A record is read from a value of its own, so nothing follows it.
  have hread := htakes []
  rw [List.append_nil] at hread
  rw [ReadsBack, decode, hread]

theorem key_inj {name name' : String} (h : key name = key name') : name = name' :=
  Bytes.ofText_inj (List.cons.inj h).2

end Record

end XmlIndex

import Mathlib.Data.List.Nodup

/-!
FIX field tags and their wire texts, in the order of the source table. The text of
`INVALID` is written as a zero character, which makes it the empty string.
-/

namespace FastLittleMarket.Fix

/-- The bytes of a text of ASCII characters. -/
def ascii (s : String) : List UInt8 := s.toList.map fun c => c.toNat.toUInt8

def soh : UInt8 := 1

def equals : UInt8 := 61

inductive FieldTag where
  | account | advId | advRefID | advSide | advTransType | avgPx | beginSeqNo | beginString
  | bodyLength | checkSum | clOrdID | commission | commType | cumQty | currency | endSeqNo
  | execID | execInst | execRefID | handlInst | securityIDSource | ioiid | ioiQltyInd
  | ioiRefID | ioiQty | ioiTransType | lastCapacity | lastMkt | lastPx | lastQty
  | noLinesOfText | msgSeqNum | msgType | newSeqNo | orderID | orderQty | ordStatus | ordType
  | origClOrdID | origTime | possDupFlag | price | refSeqNum | securityID | senderCompID
  | senderSubID | sendingTime | quantity | side | symbol | targetCompID | targetSubID | text
  | timeInForce | transactTime | urgency | validUntilTime | settlType | settlDate | symbolSfx
  | listID | listSeqNo | totNoOrders | listExecInst | allocID | allocTransType | refAllocID
  | noOrders | avgPxPrecision | tradeDate | positionEffect | noAllocs | allocAccount
  | allocShares | processCode | noRpts | rptSeq | cxlQty | noDlvyInst | allocStatus
  | allocRejCode | signature | secureDataLen | secureData | signatureLength | emailType
  | rawDataLength | rawData | possResend | encryptMethod | stopPx | exDestination
  | cxlRejReason | ordRejReason | ioiQualifier | issuer | securityDesc | heartBtInt | clientID
  | minQty | maxFloor | testReqID | reportToExch | locateReqd | onBehalfOfCompID
  | onBehalfOfSubID | quoteID | netMoney | settlCurrAmt | settlCurrency | forexReq
  | origSendingTime | gapFillFlag | noExecs | expireTime | dkReason | deliverToCompID
  | deliverToSubID | ioiNaturalFlag | quoteReqID | bidPx | offerPx | bidSize | offerSize
  | noMiscFees | miscFeeAmt | miscFeeCurr | miscFeeType | prevClosePx | resetSeqNumFlag
  | senderLocationID | targetLocationID | onBehalfOfLocationID | deliverToLocationID
  | noRelatedSym | subject | headline | urlLink | execType | leavesQty | cashOrderQty
  | allocAvgPx | allocNetMoney | settlCurrFxRate | settlCurrFxRateCalc | numDaysInterest
  | accruedInterestRate | accruedInterestAmt | settlInstMode | allocText | settlInstID
  | settlInstTransType | emailThreadID | settlInstSource | securityType | effectiveTime
  | standInstDbType | standInstDbName | standInstDbID | settlDeliveryType | bidSpotRate
  | bidForwardPoints | offerSpotRate | offerForwardPoints | orderQty2 | settlDate2
  | lastSpotRate | lastForwardPoints | allocLinkID | allocLinkType | secondaryOrderID
  | noIOIQualifiers | maturityMonthYear | putOrCall | strikePrice | coveredOrUncovered
  | optAttribute | securityExchange | notifyBrokerOfCredit | allocHandlInst | maxShow
  | pegOffsetValue | xmlDataLen | xmlData | settlInstRefID | noRoutingIDs | routingType
  | routingID | spread | benchmarkCurveCurrency | benchmarkCurveName | benchmarkCurvePoint
  | couponRate | couponPaymentDate | issueDate | repurchaseTerm | repurchaseRate | factor
  | tradeOriginationDate | exDate | contractMultiplier | noStipulations | stipulationType
  | stipulationValue | yieldType | yield | totalTakedown | concession
  | repoCollateralSecurityType | redemptionDate | underlyingCouponRate
  | underlyingContractMultiplier | underlyingSecurityID | underlyingSecurityIDSource
  | underlyingSymbol | tradingSessionID | noLegs | legCurrency | legPrice | legSymbol
  | legSecurityID | legSecurityIDSource | tradingSessionSubID | legQty | legOrderQty
  | legRatioQty | legSide | noUnderlyings | underlyingPx | underlyingQty | invalid
  deriving DecidableEq

def fieldTagToFix : List (List UInt8) :=
  List.map ascii [
    "1", "2", "3", "4", "5", "6", "7", "8", "9", "10", "11", "12", "13", "14", "15", "16",
    "17", "18", "19", "21", "22", "23", "25", "26", "27", "28", "29", "30", "31", "32", "33",
    "34", "35", "36", "37", "38", "39", "40", "41", "42", "43", "44", "45", "48", "49", "50",
    "52", "53", "54", "55", "56", "57", "58", "59", "60", "61", "62", "63", "64", "65", "66",
    "67", "68", "69", "70", "71", "72", "73", "74", "75", "77", "78", "79", "80", "81", "82",
    "83", "84", "85", "87", "88", "89", "90", "91", "93", "94", "95", "96", "97", "98", "99",
    "100", "102", "103", "104", "106", "107", "108", "109", "110", "111", "112", "113", "114",
    "115", "116", "117", "118", "119", "120", "121", "122", "123", "124", "126", "127", "128",
    "129", "130", "131", "132", "133", "134", "135", "136", "137", "138", "139", "140", "141",
    "142", "143", "144", "145", "146", "147", "148", "149", "150", "151", "152", "153", "154",
    "155", "156", "157", "158", "159", "160", "161", "162", "163", "164", "165", "167", "168",
    "169", "170", "171", "172", "188", "189", "190", "191", "192", "193", "194", "195", "196",
    "197", "198", "199", "200", "201", "202", "203", "206", "207", "208", "209", "210", "211",
    "212", "213", "214", "215", "216", "217", "218", "220", "221", "222", "223", "224", "225",
    "226", "227", "228", "229", "230", "231", "232", "233", "234", "235", "236", "237", "238",
    "239", "240", "245", "246", "309", "305", "311", "336", "555", "556", "566", "600", "602",
    "603", "625", "687", "685", "623", "624", "711", "810", "879", ""]

def ftof (t : FieldTag) : List UInt8 := fieldTagToFix.getD t.ctorIdx []

/-- The first tag of the table with the text `s`. -/
def stoft (s : List UInt8) : Option FieldTag :=
  (fieldTagToFix.findIdx? fun text => text = s).map FieldTag.ofNat

theorem FieldTag.ctorIdx_lt (t : FieldTag) : t.ctorIdx < fieldTagToFix.length := by
  have count : fieldTagToFix.length = 231 := by decide +kernel
  rw [count]
  cases t <;> decide

theorem ftof_eq_getElem (t : FieldTag) :
    ftof t = fieldTagToFix.get ⟨t.ctorIdx, t.ctorIdx_lt⟩ := by
  simp [ftof, List.getD_eq_getElem?_getD, t.ctorIdx_lt]

theorem ftof_mem (t : FieldTag) : ftof t ∈ fieldTagToFix := by
  rw [ftof_eq_getElem]
  exact List.getElem_mem _

/-- The texts as numbers to base 256, behind a leading one. -/
def textNumber (s : List UInt8) : Nat := s.foldl (fun n c => n * 256 + c.toNat) 1

/-- Whether the numbers are distinct, and none of them is a bit of the mask. -/
def distinctBits : Nat → List Nat → Bool
  | _, [] => true
  | mask, n :: ns => !mask.testBit n && distinctBits (mask ||| 1 <<< n) ns

theorem nodup_of_distinctBits {mask : Nat} {ns : List Nat} (h : distinctBits mask ns = true) :
    (∀ n ∈ ns, mask.testBit n = false) ∧ ns.Nodup := by
  induction ns generalizing mask with
  | nil => exact ⟨fun _ hn => absurd hn List.not_mem_nil, .nil⟩
  | cons n ns ih =>
      simp only [distinctBits, Bool.and_eq_true, Bool.not_eq_true'] at h
      obtain ⟨fresh, distinct⟩ := ih h.2
      simp only [Nat.one_shiftLeft, Nat.testBit_or, Bool.or_eq_false_iff, Nat.testBit_two_pow,
        decide_eq_false_iff_not] at fresh
      constructor
      · intro k hk
        rcases List.mem_cons.mp hk with rfl | later
        · exact h.1
        · exact (fresh k later).1
      · exact List.nodup_cons.mpr ⟨fun later => (fresh n later).2 rfl, distinct⟩

-- the numbers differ modulo 890 already, and a mask of that many bits is checked fast
theorem fieldTagToFix_nodup : fieldTagToFix.Nodup := by
  have numbers : distinctBits 0 (fieldTagToFix.map fun s => textNumber s % 890) = true := by
    decide +kernel
  exact (nodup_of_distinctBits numbers).2.of_map _

theorem stoft_ftof (t : FieldTag) : stoft (ftof t) = some t := by
  have found : fieldTagToFix.findIdx? (fun text => text = ftof t) = some t.ctorIdx := by
    rw [List.findIdx?_eq_some_iff_getElem]
    refine ⟨t.ctorIdx_lt, by simp [ftof_eq_getElem], ?_⟩
    intro j hj
    have other := List.pairwise_iff_getElem.mp fieldTagToFix_nodup j t.ctorIdx
      (Nat.lt_trans hj t.ctorIdx_lt) t.ctorIdx_lt hj
    simpa [ftof_eq_getElem] using other
  rw [stoft, found, Option.map_some, FieldTag.ofNat_ctorIdx]

theorem ftof_of_stoft {s : List UInt8} {t : FieldTag} (h : stoft s = some t) : ftof t = s := by
  have ctorIdx_ofNat : ∀ i < 231, (FieldTag.ofNat i).ctorIdx = i := by decide +kernel
  have count : fieldTagToFix.length = 231 := by decide +kernel
  obtain ⟨i, found, rfl⟩ := Option.map_eq_some_iff.mp h
  obtain ⟨bound, text, -⟩ := List.findIdx?_eq_some_iff_getElem.mp found
  rw [ftof, ctorIdx_ofNat i (count ▸ bound), List.getD_eq_getElem?_getD,
    List.getElem?_eq_getElem bound, Option.getD_some]
  simpa using text

theorem ftof_digits (t : FieldTag) : ∀ c ∈ ftof t, 48 ≤ c ∧ c ≤ 57 := by
  have digits : fieldTagToFix.all (fun text => text.all fun c => 48 ≤ c && c ≤ 57) = true := by
    decide +kernel
  have text := List.all_eq_true.mp digits _ (ftof_mem t)
  simpa using text

end FastLittleMarket.Fix

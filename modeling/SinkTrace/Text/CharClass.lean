/-!
Classes of characters beyond ASCII: which are printed as they are, which may stand in a name, and
which are decimal digits.

A class is given by the lengths of its runs: so many characters are not in it, then so many are, and
so on. The lengths are written in base 26, the last digit of each as a capital letter.
-/

namespace SinkTrace.Text.CharClass

def within : List Nat → Nat → Bool
  | [], _ => false
  | r :: rs, n => r ≤ n && !within rs (n - r)

def runs (n : Nat) : List Char → List Nat
  | [] => []
  | c :: cs =>
    if c.isUpper then (26 * n + (c.toNat - 65)) :: runs 0 cs else runs (26 * n + (c.toNat - 97)) cs

def unprintable : List Nat := runs 0 <| String.toList <|
  "eYbHMBbbMCGEHBBBUBpHBbMCbYCDBcDIbBEGRWBhKBbWCcHCdXOcHCbXCPBbCCBBLFbFJcWBgFBICCCWBHBBDECJCCCEI" ++
  "BECBFCZCDBGECCWBHBCBCBCCBBFECCDDBHEBBHRKDBJBDBWBHBCBFCKBDBDCBPECMHHBDBICCCWBHBCBFCJCCCDHDECBF" ++
  "CSKCBGDDBEDCBBBCDCDDDMEFDDBECBGBOVFNBDBXBQCJBDBEHCBDCBCECKHWBDBXBKBFCJBDBEHCGCBECKBCNNBDBbZBD" ++
  "BGEQCbABDBSDYBJBBCHDBEGBBBIGKCDMcGEbDbLCBBBFBYBBBXCFBBBGCKCEbGcUBbKEbNBbKBPBNbLhQBBFBCoNBECHB" ++
  "BBECbPBECbHBECHBBBECPBcFBECcPCbGDbAGdICGCyQBbCDdLHWJYJUMNBDBCMdQCKGKGOBLGdLHbRFcSKbFBMEMEBDbQ" ++
  "CFLbSEbAGLDcKCcNBbDCLGKGOCbFbXcZDbVBeMIcIDPDcIHbRCLIbRFuOCGCbMCGCIBBBBBBBbFCcBBPBOCGBTCDBJRYI" ++
  "bVRCCbBBNDbHPbHPfKEzNZLVcrSCbGBnLFbTBBFBCcEHCOYJHBHBHBHBHBHBHBHBeWbIbABdLMiGbAMFcLBdICdZFbRBd" ++
  "QBdGMbVBbriRDcDJnKUhCIhVFCBBBFYcHDKGcEIcSIMGeMLbEDdABLEbHBcDJOCKCdZYbCKGCGCGJHBHBcIEeWCKGqnSM" ++
  "XEbXmnCoCCeCbMHMFFbABFBBBCBCBeVQrDCcCHBbGbQGbZBTBEEFBfFEhIDGCGCGCDDHBHNCCMBbABTBCBPCObIeTFDEb" ++
  "TDdKBNDBbVbUfAbDDbXPbCEbKJbEFbRFbEBbLEObQgCCKGbKEbKEbOIcALMBPBHBCBLBPBHBCcPlZJWKIYGBbQBJcRGCB" ++
  "BbSBCDBCXBcUIJbWTBCFbHDbBFBcMcEEUCbYBCFIBDBbDCDEKHJHcMbGbNEMJcCDbDCbBFbAHEMHdCcVcDbZNbZHbUIKl" ++
  "IbFBbQBDCCdAbOIbQWbAbMbCUXJdAEbKJcKBFNZHKGcBBSIbNJdSBULSBbScNHBBBEBPBLGcHFKGEBICCCWBHBCBFBKCC" ++
  "CDCBGBFHCHDFfJdOBFbEcUIKgKcCCbMbIcRLKGNTcGGKcCbBCPEXhDcIdWdFMICBCIBCBbEBCCMJKcSICbUCLbBcUIdFN" ++
  "cVkDJBbTBOKbDDbGCWBOcVHBCBbSDBBCBJIKGGBCBbLBCBGHKlYZhBBPbYNbjNdYeHBFLhOdxKdVNbpFfzTwLmuBvXHbF" ++
  "BKEdDBKGbECGKcSKKBHBVFTbaMdNdXcXEcFHRcMFLCOjcAIbvQbQJnfREBHBCBlFbTDREIpGdkUeDFNDJHKCEgyYbUCXJ" ++
  "eMcIjMKbNCcWIeIVcSfYUMdJJZfFdHBcTBCCBCCCEBMBBBHBcNBECIBHBbCBEBFBBDHBnCClGCbbAPFBPbqMbFiRHBRCH" ++
  "BCBFiFbTDOCKECmIbFRcGFBbwAHBEBCBPBhPCQbPcYEKECbeFcQcYcJhMEBbBBCBBCBBKBEBBBBGBEBBBBBBDBCBBCBBB" ++
  "BBBBBBBCBBCEBHBEBEBBBKBRFDBFBRcACkKbSEdWMPCPBPBbLKgScEbDNbSEJHCOGfYblWFQDNDeMMdLHMEBPMEcEIKGb" ++
  "OIbECCdAnCMOCFDFDHJbDDLFGKKGIIHJfRBcDbLKbnQclfCbGgdTHiOCinQOlbLepJuWcfYhhZbotmRjG"

def nameStart : List Nat := runs 0 <| String.toList <|
  "gOBKBEBFXBbFBrQEMOFHBBBeZFBCDDBBGBBDBBBUBdFBfJIgKBbMCBGbPcTbBEEbTbRbJCBdVBBPCHCKDCBQBBbEbDdLL" ++
  "BYbHJCEBFWEBJBDBXZHLFYBGRbQcGcCDBSBHKPQEICCCWBHBBDEDBQBNCBDOCKBIGECCWBHBCBCBCbFEBBTDQJBDBWBHB" ++
  "CBFDBSBPCXBLICCCWBHBCBFDBbECBDPBRBBGDDBEDCBBBCDCDDDMWBcAIBDBXBQDBbADCBCCbEBEIBDBXBKBFDBbFCBCP" ++
  "CRJBDBbPCBQBFDIDYGFSDYBJBBCHcGbWBBNHcGCBBBFBYBBBKBBKBCFBBVEbGBcLIBbKbBFeLbRUBQGEEDBDCHDENMBRb" ++
  "MBBFBCbRBmVBECHBBBECbPBECbHBECHBBBECPBcFBECcPbLQQdICGDxWCRBbAFcXDLHSNTOSONBDPcAbJBEBcPdLHbPBB" ++
  "FcSKbFbXbECFLbSEbAcCXJcBdEBdPbVRIcCbENCKbSbAbKbPDKbKCJHbRCDbPEBGBCDBFhKcMkSCGCbMCGCIBBBBBBBbF" ++
  "CcBBHBBDDBHDECGENFDBHeMBNBQNdXBEBCKBBCGGBBBBBBQCEFFEBRbPdzBiVGEDCMbMBBFBCcEHBQXJHBHBHBHBHBHBH" ++
  "BHvEDZJHFCFEdIGDBdMBEFbRBdQRbGbWQtSjtOcMbguFcPbUCkJDQKCUbVQbFCdCbNJCdZCcMFCBBBFYQBDBEBXbDcAOb" ++
  "YcKGDBBCLbCKXZbDHbVbCBQFBKKFBbPXDBIUXDBDbYBBDCCFCBBBYDCLHDMGCGCGJHBHBbRBOGeLbDqnSMXEbXmnCoCCe" ++
  "CbMHMFFBBKBNBFBBBCBCBeEbHfJGiKScMCcCbOKePBBBDBBBBBBBBeWbKbAGbALcECbFDGCGCGCDbJMBbABTBCBPCObIe" ++
  "TcRcBkHbDDbXbVbGNbEFbMKbECbKEIBFbQgCSbKEbKEbOIcAMLBPBHBCBLBPBHBCcPlZJWKIYGBbQBJcRGCBBbSBCDBCX" ++
  "KXJbFcNTBCKWKbAcScEGCcMBPEBDBbDbQbDDbDbJIBbCbBcCKWKTNSeGcVcDbZNbZNbKnKbQGCdAbDKBIWbQSbUVbBXMc" ++
  "BcFCCBNbTbGZbAbKbDBCBIbJDBMbWOEVBBBbJSBZdGHBBBEBPBKHbVbMICCCWBHBCBFDBSBMFgCcBSEUDbEbWUCBBhCbV" ++
  "bPEbKbWUBcHbRNBcTbBbLHhDbSeMcMbFICBCIBCBYPBBBdQICbNQBBBbCBKbOHBVBLbUTBScVkDJBbLRBbXbEeIHBCBbM" ++
  "VBZGBCBbGOBmPThHBdBbjMdYeHRhOdxKdTPbpFfzTwLmuBvXHbFRdBRbESbWQEbFVFTbaMcMeYcXFBcONcMCBBbCjcAIb" ++
  "vQbQJnfREBHBCBlFbTDREIpGdkUeDFNDJHKiwKdHBcTBCCBCCCEBMBBBHBcNBECIBHBbCBEBFBBDHBnCCZBZBbFBZBbFB" ++
  "ZBbFBZBbFBZBIcsYbFsNbTKHQBmJbESbSbwUHBEBCBPBhPcHcQHBbuIEBbBBCBBCBBKBEBBBBGBEBBBBBBDBCBBCBBBBB" ++
  "BBBBBCBBCEBHBEBEBBBKBRFDBFBRgoAclfCbGgdTHiOCinQOlbLepJuWcfYhhZ"

def nameRest : List Nat := runs 0 <| String.toList <|
  "hBBwMeIXBjRFkFbTBBBCBCBBcULbWbFGBdXHCGCCBECKXBbEbBdNLPKbHJJBYEBJBDBFbRDcIIbQYBbHcCDBSBHKCCKRD" ++
  "cEBBHCCCDJBKCCKOBCDcEBBFECCDDBUMDBLDcEBBIBDBDUCCKKGBDcEBBHCCCDHDKCCKSBcHFDDBEJBOKQFcDBBHBDBEH" ++
  "CLCCKRDcEBBHBDBEHCLCCKQEcDCBHBDBEJBKCCKRDcSBEGBBBIGKCCcJBBIMIBKdJBBKLGCKcKCGKLBBBBBECbXUBCFLB" ++
  "bKJBdWUBKMEEDBDCHDENMBPbbBDJJbjSEbCDbDCbECcMbGJBCKbHDBLfNBeOMEMKKeYLcIFcFKBbDCLGKWOBQbXFbVRLK" ++
  "RJMDbENCKbSObWUIKGKeODBVEBGBCDhQcMwDCTBeTNEBDMeoCDfLBdSbGvIGeBCbsnDKcRBEKbGCdCCkMBDBEBXFEBdFC" ++
  "bYSKKGSNLbCIZNbSEbVOPKLBKKbVOMBICCKbHDbYBBDCCFCBBbPFFCjCIBCCKbdzGBbcJQQQDCYDhKKbLBdQCxHBiSBfT" ++
  "FlHKcaPDBCFEbODEBgJCwBEIKoFCfXLbXEeSDcBPbFLCCKEbTLHBbTKGDbKOBKFCbSBMDbWOIEBMdEMGBgEMFKGEcDCBH" ++
  "CCCDJBKCCHDFhKSJKEBdDUMKiFHCJbBCdERPKdDNIKdFPEKjIPgJKcSGBCCEBBBCMKePHCHDBbCKbOHBEIBJLbUQpPIBI" ++
  "QKcEWBOeSGDBBCBHBBIKbWFBCBFIKmREbcoNKdIKbMFcHHZKbmZBBcDHEdDBLCbdaXCgyZbUCXuWFDGIICHbEEfSDccNb" ++
  "YtScDEbYIBOBWFBPcaIHBRCHBCBFkBHJKnSBcJOcfMHeFHFKhbAKbsvgWjG"

def zeros : List Nat :=
  [48, 1632, 1776, 1984, 2406, 2534, 2662, 2790, 2918, 3046, 3174, 3302, 3430, 3558, 3664, 3792,
   3872, 4160, 4240, 6112, 6160, 6470, 6608, 6784, 6800, 6992, 7088, 7232, 7248, 42528, 43216,
   43264, 43472, 43504, 43600, 44016, 65296, 66720, 68912, 69734, 69872, 69942, 70096, 70384,
   70736, 70864, 71248, 71360, 71472, 71904, 72016, 72784, 73040, 73120, 92768, 92864, 93008,
   120782, 120792, 120802, 120812, 120822, 123200, 123632, 125264, 130032]

def isPrintable (c : Char) : Bool :=
  let n := c.toNat
  if n < 128 then 32 ≤ n && n < 127 else !within unprintable n

def isNameStart (c : Char) : Bool :=
  c.isAlpha || c = '_' || (128 ≤ c.toNat && within nameStart c.toNat)

def isNameRest (c : Char) : Bool :=
  c.isDigit || isNameStart c || (128 ≤ c.toNat && within nameRest c.toNat)

def digit? (c : Char) : Option Nat :=
  let n := c.toNat
  if n < 128 then (if c.isDigit then some (n - 48) else none)
  else (zeros.find? fun z => z ≤ n && n < z + 10).map (n - ·)

end SinkTrace.Text.CharClass
